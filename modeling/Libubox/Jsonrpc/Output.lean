import Libubox.Json.Parse
import Libubox.Json.Printable
import Libubox.Jsonrpc.Client
import Libubox.Jsonrpc.Procedures

/-!
# The output of a JSON-RPC server

`eval_request` and what it answers, `send_response`, and the loop of `connection_cb`
that writes what is pending.  A connection keeps the bytes that the socket has taken
beside its buffer, so that the stream is what was taken and what is pending.

Every answer is one line of the stream as long as its text can be printed and the
buffer stays below `2 ^ 31` bytes (`output_lines`).  Memory is granted.
-/

namespace Libubox.Jsonrpc

open Json Json.Printer Bytes Binary64

/-! ## Answers -/

/-- The member names `method`, `params`, `error`, `code` and `message`. -/
def methodName : Text := [109, 101, 116, 104, 111, 100]
def paramsName : Text := [112, 97, 114, 97, 109, 115]
def errorName : Text := [101, 114, 114, 111, 114]
def codeName : Text := [99, 111, 100, 101]
def messageName : Text := [109, 101, 115, 115, 97, 103, 101]

/-- `JRPC_INVALID_REQUEST` and `JRPC_METHOD_NOT_FOUND`. -/
abbrev jrpcInvalidRequest : Int := -32600
abbrev jrpcMethodNotFound : Int := -32601

/-- "Method not found." -/
def notFound : Text :=
  [77, 101, 116, 104, 111, 100, 32, 110, 111, 116, 32, 102, 111, 117, 110, 100, 46]

/-- "The JSON sent is not a valid Request object." -/
def invalidRequest : Text :=
  [84, 104, 101, 32, 74, 83, 79, 78, 32, 115, 101, 110, 116, 32, 105, 115, 32, 110, 111, 116, 32,
    97, 32, 118, 97, 108, 105, 100, 32, 82, 101, 113, 117, 101, 115, 116, 32, 111, 98, 106, 101,
    99, 116, 46]

/-- `json_add_item_to_array`: behind the last child. -/
def appendChain : Json → Json → Json
  | .nil, item => item
  | .node i child next, item => .node i child (appendChain next item)

/-- `json_add_item_to_object`. -/
def addItemToObject (object : Json) (string : Text) (item : Json) : Json :=
  match object, item with
  | object, .nil => object
  | .nil, _ => .nil
  | .node i child next, item => .node i (appendChain child (setKey string item)) next

/-- The object of `send_error`. -/
def errorRoot (code : Int) (message : Text) (id : Json) : Json :=
  let error := addItemToObject createObject codeName (createNumber (.ofInt code))
  let error := addItemToObject error messageName (createString message)
  addItemToObject (addItemToObject createObject errorName error) idName id

/-- The object of `send_result`. -/
def resultRoot (result id : Json) : Json :=
  addItemToObject (addItemToObject createObject resultName result) idName id

/-- What a procedure leaves behind: the tree that it returns, the copy of the id it was
given, and `struct jrpc_context`.  A procedure works on trees through the API, and sets
a message along with a code. -/
structure Reply (env : Libc) where
  returned : Json
  id : Json
  errorCode : Int
  errorMessage : Option Text
  returned_built : Built env returned
  id_built : Built env id
  message : errorCode ≠ 0 → errorMessage ≠ none

/-- `jrpc_function`: `ctx->data`, the params and the id. -/
abbrev Function (env : Libc) (δ : Type*) := Option δ → Option (Item × Json) → Json → Reply env

variable {env : Libc} {δ : Type*}

/-- `invoke_procedure`: the object that it sends. -/
def invokeProcedure (server : Server (Function env δ) δ) (name : Text)
    (params : Option (Item × Json)) (id : Json) : Option Json :=
  (server.lookup name).bind fun
    | none => some (errorRoot jrpcMethodNotFound notFound id)
    | some p =>
        let reply := p.function p.data params id
        if reply.errorCode ≠ 0 then
          reply.errorMessage.map fun message => errorRoot reply.errorCode message reply.id
        else some (resultRoot reply.returned reply.id)

/-- The copy of the id in `invoke_procedure_id`. -/
def copyId : Option (Item × Json) → Option Json
  | none => some .nil
  | some (id, _) =>
      if id.type = .string then id.valuestring.map createString
      else some (createNumber (.ofInt id.valueint))

/-- The item is missing, or of one of the types. -/
def isAbsentOr (types : List JsonType) : Option (Item × Json) → Bool
  | none => true
  | some (item, _) => item.type ∈ types

/-- `eval_request`: the object that it sends; none is a null pointer that is followed. -/
def evalRequest (server : Server (Function env δ) δ) (root : Json) : Option Json :=
  let invalid :=
    some (errorRoot jrpcInvalidRequest invalidRequest .nil)
  match getObjectItem root methodName with
  | none => invalid
  | some (method, _) =>
      if method.type = .string then
        let params := getObjectItem root paramsName
        let id := getObjectItem root idName
        if isAbsentOr [.array, .object] params && isAbsentOr [.string, .number] id then
          (copyId id).bind fun id =>
            method.valuestring.bind fun name =>
              invokeProcedure server (name.takeWhile (· ≠ 0)) params id
        else invalid
      else invalid

/-! ## The buffer -/

/-- The output of `struct jrpc_connection`: its buffer, the bytes that the socket has
taken, and whether it waits for `ULOOP_WRITE`. -/
structure Connection where
  w : Buffer
  sent : Text
  waits : Bool

/-- The bytes that wait to be written. -/
def Connection.pending (c : Connection) : Text := c.w.data.take c.w.pos

/-- `new_connection`. -/
def newConnection : Connection :=
  { w := { pos := 0, size := 1500, data := List.replicate 1500 0 }, sent := [], waits := false }

/-- `realloc` to `size` bytes; what is new holds anything. -/
def Buffer.resize (junk : Nat → UInt8) (buf : Buffer) (size : Nat) : Buffer :=
  { buf with
    size
    data := buf.data.take size ++ (List.range' buf.data.length (size - buf.data.length)).map junk }

/-- `connection_write`; none is an `int` that does not fit, or a store outside. -/
def connectionWrite (junk : Nat → UInt8) (buf : Buffer) (data : Text) : Option Buffer :=
  let need := buf.pos + data.length
  if 2 ^ 31 ≤ need then none
  else
    let buf := if buf.size < need then buf.resize junk need else buf
    if need ≤ buf.data.length then
      some { buf with pos := need, data := overwrite buf.data buf.pos data }
    else none

/-- The first `n` pending bytes are taken out. -/
def Buffer.consume (buf : Buffer) (n : Nat) : Buffer :=
  let pos := buf.pos - n
  { buf with pos, data := overwrite buf.data 0 ((buf.data.drop n).take pos) }

/-- `send_response`.  The write takes at most `k + 1` bytes for `some k`, and none at all
if it would block. -/
def sendResponse (junk : Nat → UInt8) (c : Connection) (response : Printed)
    (write : Option Nat) : Option Connection :=
  match response with
  | .text t =>
      (connectionWrite junk c.w t).bind fun w =>
        (connectionWrite junk w [10]).map fun w =>
          match write with
          | none => { c with w, waits := true }
          | some k =>
              let n := min (k + 1) w.pos
              let sent := c.sent ++ w.data.take n
              if w.pos ≤ n then { c with w := { w with pos := 0 }, sent }
              else { w := w.consume n, sent, waits := true }
  | _ => none

/-- The loop of `connection_cb` that writes, up to a write that would block: how many
bytes the socket takes. -/
def writeLoop (pos : Nat) : Nat → List Nat → Nat
  | offset, [] => offset
  | offset, k :: ks =>
      if pos - offset = 0 then offset else writeLoop pos (offset + min (k + 1) (pos - offset)) ks

/-- `connection_cb` up to the read; `writable` is `events & ULOOP_WRITE`. -/
def drain (c : Connection) (writes : List Nat) (writable : Bool) : Connection :=
  let offset := writeLoop c.w.pos 0 writes
  let w := if offset ≠ 0 then c.w.consume offset else c.w
  { w
    sent := c.sent ++ c.w.data.take offset
    waits := if w.pos = 0 && writable then false else c.waits }

/-! ## Runs -/

/-- The number texts that are printed fit the memory that `print_number` asks for. -/
def numbersFit (env : Libc) (fmt : Bool) : Json → Bool
  | .nil => true
  | .node item child next =>
      (cached fmt item != none ||
        match item.type with
        | .number => (printNumber env item).2.length + 1 ≤ (printNumber env item).1
        | .array => numbersFit env fmt child
        | .object => numbersFit env fmt child
        | _ => true) &&
      numbersFit env fmt next

/-- `json_to_string_unformatted`, which is undefined if a number does not fit. -/
def render (env : Libc) (root : Json) : Printed :=
  if numbersFit env false root then (jsonToStringUnformatted env unlimited root).1 else .fault

/-- A value that was parsed. -/
structure Request (env : Libc) where
  root : Json
  parsed : ∃ m rest, jsonParseStream env m = .ok root rest

/-- What happens to a connection: pending bytes are written, or a request is evaluated. -/
inductive Event (env : Libc)
  | drain (writes : List Nat) (writable : Bool)
  | request (request : Request env) (write : Option Nat)

/-- One event, and the texts that are answered. -/
def step (server : Server (Function env δ) δ) (junk : Nat → UInt8) (c : Connection) :
    Event env → Option (Connection × List Text)
  | .drain writes writable => some (drain c writes writable, [])
  | .request request write =>
      (evalRequest server request.root).bind fun response =>
        (sendResponse junk c (render env response) write).map fun c =>
          (c, (render env response).text?.toList)

/-- The answer can be printed, and the buffer has room for it and its newline. -/
def Room (server : Server (Function env δ) δ) (c : Connection) : Event env → Prop
  | .drain _ _ => True
  | .request request _ => ∀ response, evalRequest server request.root = some response →
      Fits env false response ∧ numbersFit env false response = true ∧
        c.w.pos + (valueText env false response).length + 1 < 2 ^ 31

/-- What an event answers: for a request one text, which is one line. -/
def Answers (server : Server (Function env δ) δ) : Event env → List Text → Prop
  | .drain _ _, texts => texts = []
  | .request request _, texts => ∃ response t, evalRequest server request.root = some response ∧
      (jsonToStringUnformatted env unlimited response).1 = .text t ∧ Printable t ∧ texts = [t]

/-- Texts with their newlines. -/
def lines (texts : List Text) : Text := texts.flatMap (· ++ [10])

/-! ## Writing to the buffer -/

/-- The buffer has the memory that it says, and the pending bytes are in it. -/
structure Buffer.Sound (buf : Buffer) : Prop where
  pos : buf.pos ≤ buf.data.length
  size : buf.size = buf.data.length

/-- What a store at the end leaves in front. -/
theorem take_overwrite {mem bs : Text} {off : Nat} (h : off ≤ mem.length) :
    (overwrite mem off bs).take (off + bs.length) = mem.take off ++ bs := by
  have hlength : (mem.take off ++ bs).length = off + bs.length := by
    rw [List.length_append, List.length_take, Nat.min_eq_left h]
  rw [overwrite, ← hlength, List.take_left]

theorem resize_sound {buf : Buffer} {size : Nat} (junk : Nat → UInt8) (h : buf.Sound)
    (hsize : buf.data.length ≤ size) :
    (buf.resize junk size).Sound ∧ (buf.resize junk size).data.length = size ∧
      (buf.resize junk size).data.take buf.pos = buf.data.take buf.pos := by
  have hdata : (buf.resize junk size).data
      = buf.data ++ (List.range' buf.data.length (size - buf.data.length)).map junk := by
    rw [Buffer.resize, List.take_of_length_le hsize]
  have hlength : (buf.resize junk size).data.length = size := by
    rw [hdata, List.length_append, List.length_map, List.length_range']
    omega
  refine ⟨⟨?_, ?_⟩, hlength, ?_⟩
  · rw [hlength]
    exact h.pos.trans hsize
  · exact hlength.symm
  · rw [hdata, List.take_append_of_le_length h.pos]

/-- `connection_write` adds to the pending bytes. -/
theorem connectionWrite_spec {buf : Buffer} {data : Text} (junk : Nat → UInt8) (h : buf.Sound)
    (hroom : buf.pos + data.length < 2 ^ 31) :
    ∃ buf', connectionWrite junk buf data = some buf' ∧ buf'.Sound ∧
      buf'.pos = buf.pos + data.length ∧
      buf'.data.take buf'.pos = buf.data.take buf.pos ++ data := by
  -- the buffer with enough memory
  obtain ⟨big, hbig, hsound, hlength, hpos, htake⟩ : ∃ big : Buffer,
      (if buf.size < buf.pos + data.length then buf.resize junk (buf.pos + data.length) else buf)
        = big ∧ big.Sound ∧ buf.pos + data.length ≤ big.data.length ∧ big.pos = buf.pos ∧
      big.data.take buf.pos = buf.data.take buf.pos := by
    refine ⟨_, rfl, ?_⟩
    split
    · next hsmall =>
        have hle : buf.data.length ≤ buf.pos + data.length := by
          rw [← h.size]
          exact hsmall.le
        obtain ⟨hsound, hlength, htake⟩ := resize_sound junk h hle
        exact ⟨hsound, hlength.ge, rfl, htake⟩
    · next hlarge =>
        refine ⟨h, ?_, rfl, rfl⟩
        rw [← h.size]
        exact Nat.le_of_not_lt hlarge
  have hstore : (overwrite big.data buf.pos data).length = big.data.length :=
    overwrite_length hlength
  have hwrite : connectionWrite junk buf data = some { big with
      pos := buf.pos + data.length, data := overwrite big.data buf.pos data } := by
    simp only [connectionWrite, if_neg (Nat.not_le.mpr hroom), hbig, if_pos hlength, hpos]
  refine ⟨_, hwrite, ⟨?_, ?_⟩, rfl, ?_⟩
  · show buf.pos + data.length ≤ (overwrite big.data buf.pos data).length
    rwa [hstore]
  · show big.size = (overwrite big.data buf.pos data).length
    rw [hstore, hsound.size]
  · show (overwrite big.data buf.pos data).take (buf.pos + data.length) = _
    rw [take_overwrite ((Nat.le_add_right _ _).trans hlength), htake]

/-- Taking out the first `n` pending bytes leaves the others. -/
theorem consume_spec {buf : Buffer} {n : Nat} (h : buf.Sound) (hn : n ≤ buf.pos) :
    (buf.consume n).Sound ∧ buf.data.take n ++ (buf.consume n).data.take (buf.consume n).pos
      = buf.data.take buf.pos := by
  have hpos := h.pos
  have hmoved : ((buf.data.drop n).take (buf.pos - n)).length = buf.pos - n := by
    rw [List.length_take, List.length_drop]
    omega
  have hlength : (overwrite buf.data 0 ((buf.data.drop n).take (buf.pos - n))).length
      = buf.data.length := by
    apply overwrite_length
    rw [hmoved]
    omega
  constructor
  · constructor
    · show buf.pos - n ≤ (overwrite buf.data 0 _).length
      rw [hlength]
      omega
    · show buf.size = (overwrite buf.data 0 _).length
      rw [hlength, h.size]
  · have htake := @take_overwrite buf.data ((buf.data.drop n).take (buf.pos - n)) 0 (Nat.zero_le _)
    rw [hmoved, Nat.zero_add, List.take_zero, List.nil_append] at htake
    show buf.data.take n ++ (overwrite buf.data 0 _).take (buf.pos - n) = _
    rw [htake, ← List.take_add, Nat.add_sub_cancel' hn]

theorem writeLoop_le (pos : Nat) (writes : List Nat) {offset : Nat} (h : offset ≤ pos) :
    writeLoop pos offset writes ≤ pos := by
  induction writes generalizing offset with
  | nil => exact h
  | cons k ks ih =>
      rw [writeLoop]
      split
      · exact h
      · apply ih
        omega

/-- The loop of `connection_cb` keeps the stream. -/
theorem drain_spec {c : Connection} (h : c.w.Sound) (writes : List Nat) (writable : Bool) :
    (drain c writes writable).w.Sound ∧
      (drain c writes writable).sent ++ (drain c writes writable).pending
        = c.sent ++ c.pending := by
  have hle := writeLoop_le c.w.pos writes (Nat.zero_le _)
  have hstream := consume_spec h hle
  rw [drain, Connection.pending]
  by_cases hzero : writeLoop c.w.pos 0 writes ≠ 0
  · simp only [if_pos hzero]
    refine ⟨hstream.1, ?_⟩
    rw [List.append_assoc, hstream.2, Connection.pending]
  · simp only [if_neg hzero]
    rw [not_not.mp hzero, List.take_zero, List.append_nil]
    exact ⟨h, rfl⟩

/-- `send_response` adds a line to the stream. -/
theorem sendResponse_spec {c : Connection} {t : Text} (junk : Nat → UInt8) (h : c.w.Sound)
    (hroom : c.w.pos + t.length + 1 < 2 ^ 31) (write : Option Nat) :
    ∃ c', sendResponse junk c (.text t) write = some c' ∧ c'.w.Sound ∧
      c'.sent ++ c'.pending = c.sent ++ c.pending ++ (t ++ [10]) := by
  obtain ⟨w₁, hw₁, hsound₁, hpos₁, htake₁⟩ := @connectionWrite_spec c.w t junk h (by omega)
  obtain ⟨w, hw, hsound, hpos, htake⟩ := @connectionWrite_spec w₁ [10] junk hsound₁
    (by rw [hpos₁]; exact hroom)
  have hpending : w.data.take w.pos = c.pending ++ (t ++ [10]) := by
    rw [htake, htake₁, List.append_assoc]
    rfl
  rw [sendResponse, hw₁, Option.bind_some, hw, Option.map_some]
  refine ⟨_, rfl, ?_⟩
  cases write with
  | none => exact ⟨hsound, by rw [List.append_assoc, ← hpending]; rfl⟩
  | some k =>
      by_cases hall : w.pos ≤ min (k + 1) w.pos
      · have hmin : min (k + 1) w.pos = w.pos := by omega
        simp only [if_pos hall]
        refine ⟨⟨Nat.zero_le _, hsound.size⟩, ?_⟩
        rw [hmin, Connection.pending, List.take_zero, List.append_nil, hpending, List.append_assoc]
      · obtain ⟨hsound', hstream⟩ := consume_spec hsound (Nat.min_le_right (k + 1) w.pos)
        simp only [if_neg hall]
        refine ⟨hsound', ?_⟩
        rw [Connection.pending, List.append_assoc, hstream, hpending, List.append_assoc]

/-! ## Answers are tidy -/

theorem tidy_appendChain {chain item : Json} (h : Tidy chain) (hitem : Tidy item) :
    Tidy (appendChain chain item) := by
  induction chain with
  | nil => exact hitem
  | node i child next _ ih => exact ⟨h.1, h.2.1, ih h.2.2⟩

/-- An answer is an object, so that it can be printed, and tidy. -/
structure Sendable (root : Json) : Prop where
  node : root ≠ .nil
  tidy : Tidy root

theorem Sendable.add {object item : Json} (h : Sendable object) (string : Text) (hitem : Tidy item) :
    Sendable (addItemToObject object string item) := by
  cases item with
  | nil => cases object <;> exact h
  | node i child next =>
      cases object with
      | nil => exact absurd rfl h.node
      | node i' child' next' =>
          refine ⟨Json.noConfusion, h.tidy.1, ?_, h.tidy.2.2⟩
          exact tidy_appendChain h.tidy.2.1 hitem

theorem sendable_createObject : Sendable createObject :=
  ⟨Json.noConfusion, fun _ _ h => absurd h (by simp [newItem]), trivial, trivial⟩

theorem tidy_createString (s : Text) : Tidy (createString s) :=
  ⟨fun _ _ h => absurd h (by simp [newItem]), trivial, trivial⟩

theorem tidy_createNumber (d : Double) : Tidy (createNumber d) :=
  ⟨fun _ _ h => absurd h (by simp [newItem]), trivial, trivial⟩

theorem sendable_errorRoot (code : Int) (message : Text) {id : Json} (hid : Tidy id) :
    Sendable (errorRoot code message id) :=
  (sendable_createObject.add _ ((sendable_createObject.add _ (tidy_createNumber _)).add _
    (tidy_createString _)).tidy).add _ hid

theorem sendable_resultRoot {result id : Json} (hresult : Tidy result) (hid : Tidy id) :
    Sendable (resultRoot result id) :=
  (sendable_createObject.add _ hresult).add _ hid

section Requests

variable {server : Server (Function env δ) δ} {ps : List (Procedure (Function env δ) δ)}

/-- Whatever is called, and whatever was printed before, there is one answer. -/
theorem invokeProcedure_spec (hnan : Printable env.nanText) (htable : server.Holds ps) (name : Text)
    (params : Option (Item × Json)) {id : Json} (hid : Tidy id) :
    ∃ response, invokeProcedure server name params id = some response ∧ Sendable response := by
  rw [invokeProcedure, lookup_spec htable, Option.bind_some]
  cases (server.named name).getLast? with
  | none => exact ⟨_, rfl, sendable_errorRoot _ _ hid⟩
  | some p =>
      have hreturned := (p.function p.data params id).returned_built.tidy hnan
      have hid' := (p.function p.data params id).id_built.tidy hnan
      by_cases hcode : (p.function p.data params id).errorCode ≠ 0
      · obtain ⟨message, hmessage⟩ :=
          Option.ne_none_iff_exists'.mp ((p.function p.data params id).message hcode)
        refine ⟨_, ?_, sendable_errorRoot (p.function p.data params id).errorCode message hid'⟩
        simp only [if_pos hcode, hmessage, Option.map_some]
      · refine ⟨_, ?_, sendable_resultRoot hreturned hid'⟩
        simp only [if_neg hcode]

/-- An item that is found in a chain with values has its value. -/
theorem valued_findItem {name : Text} {chain child : Json} {item : Item} (hvalued : Valued chain)
    (h : findItem name chain = some (item, child)) :
    item.type = .string → item.valuestring ≠ none := by
  induction chain with
  | nil => cases h
  | node item' child' next _ ih =>
      rw [findItem] at h
      split at h
      · cases h
        exact hvalued.1
      · exact ih hvalued.2.2 h

theorem valued_children {root : Json} (h : Valued root) : Valued root.children := by
  cases root with
  | nil => trivial
  | node item child next => exact h.2.1

theorem copyId_spec {found : Option (Item × Json)}
    (h : ∀ id child, found = some (id, child) → id.type = .string → id.valuestring ≠ none) :
    ∃ id, copyId found = some id ∧ Tidy id := by
  cases found with
  | none => exact ⟨.nil, rfl, trivial⟩
  | some found =>
      obtain ⟨id, child⟩ := found
      rw [copyId]
      split
      · next hstring =>
          obtain ⟨s, hs⟩ := Option.ne_none_iff_exists'.mp (h id child rfl hstring)
          exact ⟨_, by rw [hs, Option.map_some], tidy_createString s⟩
      · exact ⟨_, rfl, tidy_createNumber _⟩

/-- Every request that was parsed has one answer. -/
theorem evalRequest_spec (hnan : Printable env.nanText) (htable : server.Holds ps)
    (request : Request env) :
    ∃ response, evalRequest server request.root = some response ∧ Sendable response := by
  obtain ⟨m, rest, hparsed⟩ := request.parsed
  have hvalued := valued_children (jsonParseStream_valued hparsed)
  have hinvalid : Sendable (errorRoot jrpcInvalidRequest
      invalidRequest .nil) :=
    sendable_errorRoot _ _ trivial
  rw [evalRequest]
  split
  · exact ⟨_, rfl, hinvalid⟩
  · next method _ hmethod =>
      split
      · next hstring =>
          dsimp only
          split
          · obtain ⟨name, hname⟩ :=
              Option.ne_none_iff_exists'.mp (valued_findItem hvalued hmethod hstring)
            obtain ⟨id, hcopy, hid⟩ := @copyId_spec (getObjectItem request.root idName)
              fun id child h => valued_findItem hvalued h
            rw [hcopy, Option.bind_some, hname, Option.bind_some]
            exact invokeProcedure_spec hnan htable _ _ hid
          · exact ⟨_, rfl, hinvalid⟩
      · exact ⟨_, rfl, hinvalid⟩

/-- An answer whose lengths fit comes to its text, which is one line. -/
theorem sendable_text (hnan : Printable env.nanText) {response : Json} (h : Sendable response)
    (hfits : Fits env false response) :
    (jsonToStringUnformatted env unlimited response).1 = .text (valueText env false response) ∧
      Printable (valueText env false response) := by
  have htext : (jsonToStringUnformatted env unlimited response).1
      = .text (valueText env false response) := by
    rcases printValue_eq hfits unlimited with hnull | htext
    · exact absurd hnull (printValue_ne_null h.node)
    · exact htext
  exact ⟨htext, (printValue_tidy hnan h.tidy).1 rfl _ htext⟩

/-- The texts that were answered are the stream. -/
structure Streams (c : Connection) (trace : List (List Text)) : Prop where
  sound : c.w.Sound
  stream : c.sent ++ c.pending = lines trace.flatten

theorem step_spec (hnan : Printable env.nanText) (htable : server.Holds ps) (junk : Nat → UInt8)
    {c : Connection} {past : List (List Text)} {e : Event env} (h : Streams c past)
    (hroom : Room server c e) :
    ∃ c' texts, step server junk c e = some (c', texts) ∧ Streams c' (past ++ [texts]) ∧
      Answers server e texts := by
  have hlines (texts : List Text) :
      lines (past ++ [texts]).flatten = lines past.flatten ++ lines texts := by
    rw [List.flatten_append, List.flatten_singleton, lines, List.flatMap_append, lines, lines]
  cases e with
  | drain writes writable =>
      obtain ⟨hsound, hstream⟩ := drain_spec h.sound writes writable
      refine ⟨_, [], rfl, ⟨hsound, ?_⟩, rfl⟩
      rw [hstream, h.stream, hlines]
      exact (List.append_nil _).symm
  | request request write =>
      obtain ⟨response, hresponse, hanswer⟩ := evalRequest_spec hnan htable request
      obtain ⟨hfits, hnumbers, hspace⟩ := hroom response hresponse
      obtain ⟨htext, hline⟩ := sendable_text hnan hanswer hfits
      have hrender : render env response = .text (valueText env false response) := by
        rw [render, if_pos hnumbers, htext]
      obtain ⟨c', hsend, hsound, hstream⟩ := sendResponse_spec junk h.sound hspace write
      refine ⟨c', [valueText env false response], ?_, ⟨hsound, ?_⟩, response, _, hresponse, htext,
        hline, rfl⟩
      · rw [step, hresponse, Option.bind_some, hrender, hsend]
        rfl
      · rw [hstream, h.stream, hlines, lines, lines, List.flatMap_singleton]

end Requests

theorem streams_newConnection : Streams newConnection [] :=
  ⟨⟨Nat.zero_le _, List.length_replicate.symm⟩, rfl⟩

/-- **The stream is the answers.**  In a run in which every answer can be printed and
the buffer has room for it, the bytes that the socket took and those that are pending
are the answers in their order, each one line. -/
theorem output_lines {server : Server (Function env δ) δ} {ps : List (Procedure (Function env δ) δ)}
    (hnan : Printable env.nanText) (htable : server.Holds ps) (junk : Nat → UInt8)
    (events : List (Event env))
    (hroom : Machine.Along (step server junk) (Room server) newConnection events) :
    ∃ c trace, Machine.run (step server junk) newConnection events = some (c, trace) ∧
      c.sent ++ c.pending = lines trace.flatten ∧ List.Forall₂ (Answers server) events trace := by
  have hstep : ∀ c past e, Streams c past → Room server c e →
      ∃ c' texts, step server junk c e = some (c', texts) ∧ Streams c' (past ++ [texts]) ∧
        Answers server e texts := by
    intro c past e h he
    exact step_spec hnan htable junk h he
  obtain ⟨c, trace, hrun, hstreams, hanswers⟩ :=
    Machine.exists_run_forall₂ hstep streams_newConnection hroom
  exact ⟨c, trace, hrun, hstreams.stream, hanswers⟩

/-- A server whose one procedure, `a`, returns `true`. -/
def trueServer : Server (Function default Unit) Unit :=
  { procedureCount := 1
    procedures := some [{
      name := some [97]
      function := fun _ _ _ =>
        { returned := createTrue, id := .nil, errorCode := 0, errorMessage := none
          returned_built := .new rfl .nil .nil, id_built := .nil
          message := fun h => absurd rfl h }
      data := none }] }

theorem trueServer_holds : ∃ ps, trueServer.Holds ps :=
  ⟨_, rfl, .inl rfl, fun p hp => by rw [List.mem_singleton.mp hp]; exact Option.some_ne_none _⟩

/-- `{"method":"a"}`. -/
def callRequest : Request default :=
  { root := node { newItem with type := .object }
      (node { newItem with type := .string, string := some methodName, valuestring := some [97] }
        nil nil) nil
    parsed := ⟨[123, 34, 109, 101, 116, 104, 111, 100, 34, 58, 34, 97, 34, 125, 0], [0], by decide⟩ }

theorem output_lines_call : ∃ c trace,
    Machine.run (step trueServer fun _ => 0) newConnection
        [.request callRequest (some 3), .drain [100] true] = some (c, trace) ∧
      c.sent ++ c.pending = lines trace.flatten ∧
      List.Forall₂ (Answers trueServer) [.request callRequest (some 3), .drain [100] true]
        trace := by
  obtain ⟨ps, htable⟩ := trueServer_holds
  apply output_lines (by decide) htable
  have hroom : Room trueServer newConnection (.request callRequest (some 3)) := by
    rintro response ⟨⟩
    refine ⟨⟨?_, trivial⟩, by decide, by decide⟩
    intro _
    constructor
    · show objectLength false 1 _ < 2 ^ 31
      decide
    · refine fun _ => ⟨fun _ => ⟨trivial, ?_⟩, trivial⟩
      rintro (h | h) <;> cases h
  exact ⟨hroom, fun _ _ => ⟨trivial, fun _ _ => trivial⟩⟩

theorem connectionWrite_lt {junk : Nat → UInt8} {buf buf' : Buffer} {data : Text}
    (h : connectionWrite junk buf data = some buf') : buf'.pos < 2 ^ 31 := by
  unfold connectionWrite at h
  by_cases hroom : 2 ^ 31 ≤ buf.pos + data.length
  · rw [if_pos hroom] at h
    cases h
  · rw [if_neg hroom] at h
    generalize (if buf.size < buf.pos + data.length then buf.resize junk (buf.pos + data.length)
      else buf) = big at h
    by_cases hlength : buf.pos + data.length ≤ big.data.length
    · rw [if_pos hlength] at h
      cases h
      exact Nat.lt_of_not_le hroom
    · rw [if_neg hlength] at h
      cases h

/-- A response of which the socket takes nothing. -/
theorem sendResponse_blocked {junk : Nat → UInt8} {c c' : Connection} {response : Printed}
    (h : sendResponse junk c response none = some c') : c'.sent = c.sent ∧ c'.w.pos < 2 ^ 31 := by
  cases response with
  | null => cases h
  | fault => cases h
  | text t =>
      obtain ⟨w₁, -, h⟩ := Option.bind_eq_some_iff.mp h
      obtain ⟨w, hw, h⟩ := Option.map_eq_some_iff.mp h
      cases h
      exact ⟨rfl, connectionWrite_lt hw⟩

/-- Requests of which the socket takes nothing. -/
theorem blocked_run {server : Server (Function env δ) δ} {junk : Nat → UInt8}
    {request : Request env} {n : Nat} {c c' : Connection} {trace : List (List Text)}
    (hsent : c.sent = []) (hpos : c.w.pos < 2 ^ 31)
    (hrun : Machine.run (step server junk) c (List.replicate n (.request request none))
      = some (c', trace)) : c'.sent = [] ∧ c'.w.pos < 2 ^ 31 := by
  induction n generalizing c trace with
  | zero =>
      cases hrun
      exact ⟨hsent, hpos⟩
  | succ n ih =>
      rw [List.replicate_succ] at hrun
      obtain ⟨c₁, texts, rest, hstep, hrest, -⟩ := Machine.run_cons_eq_some.mp hrun
      obtain ⟨response, -, hstep⟩ := Option.bind_eq_some_iff.mp hstep
      obtain ⟨c₂, hsend, hstep⟩ := Option.map_eq_some_iff.mp hstep
      cases hstep
      obtain ⟨hsent₁, hpos₁⟩ := sendResponse_blocked hsend
      exact ih (hsent₁.trans hsent) hpos₁ hrest

/-- As many requests, as many answers. -/
theorem answers_length {server : Server (Function env δ) δ} {request : Request env} {n : Nat}
    {trace : List (List Text)}
    (h : List.Forall₂ (Answers server) (List.replicate n (.request request none)) trace) :
    trace.flatten.length = n := by
  induction n generalizing trace with
  | zero =>
      cases h
      rfl
  | succ n ih =>
      rw [List.replicate_succ] at h
      cases h with
      | cons hanswer hrest =>
          obtain ⟨response, t, -, -, -, rfl⟩ := hanswer
          rw [List.flatten_cons, List.length_append, ih hrest, List.length_singleton]
          omega

theorem length_le_lines (texts : List Text) : texts.length ≤ (lines texts).length := by
  induction texts with
  | nil => exact Nat.zero_le _
  | cons t ts ih =>
      rw [lines, List.flatMap_cons, ← lines]
      simp only [List.length_append, List.length_cons, List.length_nil]
      omega

/-- With `2 ^ 31` requests and a socket that takes nothing the buffer overflows. -/
theorem output_overflows : ¬∀ (env : Libc) (server : Server (Function env Unit) Unit)
    (ps : List (Procedure (Function env Unit) Unit)) (junk : Nat → UInt8)
    (events : List (Event env)), Printable env.nanText → server.Holds ps →
    ∃ c trace, Machine.run (step server junk) newConnection events = some (c, trace) ∧
      c.sent ++ c.pending = lines trace.flatten ∧ List.Forall₂ (Answers server) events trace := by
  intro h
  obtain ⟨ps, htable⟩ := trueServer_holds
  have hnan : Printable (default : Libc).nanText := by decide
  obtain ⟨c, trace, hrun, hstream, hanswers⟩ := h default trueServer ps (fun _ => 0)
    (List.replicate (2 ^ 31) (.request callRequest none)) hnan htable
  obtain ⟨hsent, hpos⟩ := blocked_run rfl (by decide) hrun
  have hcount := answers_length hanswers
  have hlines := length_le_lines trace.flatten
  rw [hsent, List.nil_append] at hstream
  have hpending : c.pending.length ≤ c.w.pos := by
    rw [Connection.pending, List.length_take]
    exact Nat.min_le_left _ _
  rw [hcount, ← hstream] at hlines
  omega

end Libubox.Jsonrpc
