import Libubox.Jsonrpc.Client

/-!
# The receive buffer of the client

The reads of `jrpc_client_call` one by one, with `errno`, the retries and the `int`
position.  `bytes_read` is a `size_t`, so that the branch for a failed read is never
taken: minus one byte is counted as received.  A run of reads keeps exactly what was
received in the buffer if and only if no read fails and the position stays an `int`
(`receive_buffer_iff`).
-/

namespace Libubox.Jsonrpc

open Json Bytes

/-! ## The source -/

inductive Errno where
  | eintr
  | eagain
  | other
deriving DecidableEq

/-- What `read` returns: at most `n` bytes, or `-1`. -/
inductive Answer where
  | bytes (n : Nat)
  | failed (errno : Errno)
deriving DecidableEq

namespace Answer

/-- The read without its `errno`. -/
def read : Answer → Option Nat
  | bytes n => some n
  | failed _ => none

/-- The bytes it stores, of the `rest` that the peer sends. -/
def delivered (rest : Text) (b : Buffer) : Answer → Text
  | bytes n => rest.take (min n b.room.toNat)
  | failed _ => []

/-- The value of `bytes_read`. -/
def bytesRead (rest : Text) (b : Buffer) : Answer → Nat
  | bytes n => ((bytes n).delivered rest b).length
  | failed _ => 2 ^ 64 - 1

end Answer

/-- How a read goes on: at the label `retry`, with the parser, or out of the call. -/
inductive ReadResult
  | retry (retries : Nat) (b : Buffer)
  | parse (rest : Text) (b : Buffer)
  | stop (r : Received)

/-- From `read` to the terminating zero, in a buffer that has room. -/
def readStep (a : Answer) (retries : Nat) (rest : Text) (b : Buffer) : ReadResult :=
  let bytes := a.delivered rest b
  if bytes ≠ [] ∧ b.data.length < b.pos + bytes.length then .stop .fault
  else
    let data := overwrite b.data b.pos bytes
    if a.bytesRead rest b < 0 then
      match a with
      | .failed .eintr => .retry retries b
      | .failed .eagain => if retries = 0 then .stop (.error (- EIO)) else .retry (retries - 1) b
      | _ => .stop (.error (- EIO))
    else if a.bytesRead rest b = 0 then .stop (.error (- EIO))
    else
      let pos := Binary64.wrap32 (b.pos + a.bytesRead rest b : Nat)
      if 0 ≤ pos ∧ pos < data.length then
        .parse (rest.drop bytes.length)
          { b with pos := pos.toNat, data := overwrite data pos.toNat [0] }
      else .stop .fault

/-- The parser accepted all of the text, and waits for more. -/
def Waits (libc : Libc) (b : Buffer) : Prop :=
  ∃ tail, jsonParseStream libc b.data = .null tail ∧ tail.length = b.data.length - b.pos

/-- The parser on a text that is terminated. -/
def parseText (libc : Libc) (more : Buffer → Received) (b : Buffer) : Received :=
  match jsonParseStream libc b.data with
  | .fault => .fault
  | .ok root _ => .complete root b
  | .null tail => if tail.length = b.data.length - b.pos then more b else .error (-EINVAL)

/-- The rest of the loop after a read. -/
def ReadResult.proceed (libc : Libc) (retries : Nat) (rest : Text)
    (more : Nat → Text → Buffer → Received) : ReadResult → Received
  | .retry retries b => more retries rest b
  | .parse rest b => parseText libc (more retries rest) b
  | .stop r => r

/-- The loop of `jrpc_client_call`, read by read. -/
def receiveAnswers (peer : Peer) : List Answer → Nat → Text → Buffer → Received
  | [], _, _, _ => .waiting
  | a :: as, retries, rest, b =>
      match makeRoom peer b with
      | none => .error (-ENOMEM)
      | some b =>
          (readStep a retries rest b).proceed peer.libc retries rest (receiveAnswers peer as)

/-- What is asked of the rest of the loop. -/
def ReadResult.Then (libc : Libc) (retries : Nat) (rest : Text)
    (more : Nat → Text → Buffer → Prop) : ReadResult → Prop
  | .retry retries b => more retries rest b
  | .parse rest b => Waits libc b → more retries rest b
  | .stop _ => True

/-- `P` holds of every read that the call makes. -/
def EveryRead (P : Answer → Nat → Text → Buffer → Prop) (peer : Peer) :
    List Answer → Nat → Text → Buffer → Prop
  | [], _, _, _ => True
  | a :: as, retries, rest, b =>
      ∀ b₁, makeRoom peer b = some b₁ → P a retries rest b₁ ∧
        (readStep a retries rest b₁).Then peer.libc retries rest (EveryRead P peer as)

/-! ## The property -/

/-- The buffer holds exactly what was received, with a zero after it. -/
structure Holding (got : Text) (b : Buffer) : Prop where
  pos : b.pos = got.length
  lt : b.pos < b.size
  data : ∃ after, b.data = got ++ 0 :: after

/-- What is asked of how a read of `b` goes on, where the peer sends `all`. -/
def ResultOk (all : Text) (a : Answer) (retries : Nat) (b : Buffer) : ReadResult → Prop
  | .retry _ b' => (a = .failed .eintr ∨ a = .failed .eagain ∧ 0 < retries) ∧ b' = b
  | .parse rest' b' => (∃ n, a = .bytes n) ∧ ∃ got, all = got ++ rest' ∧ Holding got b'
  | .stop r => ∃ code, r = .error code

def ReadOk (all : Text) (a : Answer) (retries : Nat) (rest : Text) (b : Buffer) : Prop :=
  ResultOk all a retries b (readStep a retries rest b)

/-- The read does not fail, and the position after it is an `int`. -/
def Counted (a : Answer) (_retries : Nat) (rest : Text) (b : Buffer) : Prop :=
  (∃ n, a = .bytes n) ∧ b.pos + (a.delivered rest b).length < 2 ^ 31

/-- A size that `jrpc_client_init` and the doublings lead to. -/
structure Allocated (b : Buffer) : Prop where
  size : ∃ k, b.size = 1500 * 2 ^ k % 2 ^ 32
  data : b.data.length = b.size

/-- What is received so far, before the next read. -/
structure SoFar (got : Text) (b : Buffer) : Prop where
  allocated : Allocated b
  pos : b.pos = got.length
  int : b.pos < 2 ^ 31
  data : ∃ after, b.data = got ++ after

/-! ## Room -/

/-- The sizes do not come close to `2 ^ 31` from above. -/
theorem Allocated.size_gap {b : Buffer} (h : Allocated b) :
    b.size ≤ 2 ^ 31 ∨ 2 ^ 31 + 256 < b.size := by
  obtain ⟨k, hk⟩ := h.size
  rw [hk]
  by_cases hlt : k < 30
  · have hall : ∀ k < 30, 1500 * 2 ^ k % 2 ^ 32 ≤ 2 ^ 31 ∨ 2 ^ 31 + 256 < 1500 * 2 ^ k % 2 ^ 32 := by
      decide
    exact hall k hlt
  · obtain ⟨j, rfl⟩ : ∃ j, k = 30 + j := ⟨k - 30, by omega⟩
    have hzero : 1500 * 2 ^ (30 + j) % 2 ^ 32 = 0 := by
      rw [Nat.pow_add, show 1500 * (2 ^ 30 * 2 ^ j) = 2 ^ 32 * (375 * 2 ^ j) by ring,
        Nat.mul_mod_right]
    exact .inl (by rw [hzero]; omega)

theorem Allocated.size_lt {b : Buffer} (h : Allocated b) : b.size < 2 ^ 32 := by
  obtain ⟨k, hk⟩ := h.size
  omega

/-- The room as a number, where the buffer has room. -/
theorem room_eq {b : Buffer} (hsize : b.size < 2 ^ 32) (hpos : b.pos < 2 ^ 31)
    (hroom : 256 ≤ b.room) : (b.room.toNat : Int) = b.size - b.pos - 1 ∧ b.pos + 257 ≤ b.size := by
  unfold Buffer.room toInt at *
  rw [Int.bmod_def] at *
  omega

theorem SoFar.le {got : Text} {b : Buffer} (h : SoFar got b) : b.pos ≤ b.size := by
  obtain ⟨after, hafter⟩ := h.data
  rw [← h.allocated.data, hafter, List.length_append, h.pos]
  exact Nat.le_add_right _ _

theorem SoFar.doubled {peer : Peer} {got : Text} {b : Buffer} (h : SoFar got b)
    (hroom : b.room < 256) (hsize : (b.doubled peer).size ≠ 0) : SoFar got (b.doubled peer) := by
  have hle := h.le
  have hlt := h.allocated.size_lt
  have hint := h.int
  have hdouble : (b.doubled peer).size = 2 * b.size % 2 ^ 32 := rfl
  have hpos : b.pos ≤ 2 * b.size % 2 ^ 32 := by
    rw [hdouble] at hsize
    unfold Buffer.room toInt at hroom
    rw [Int.bmod_def] at hroom
    rcases h.allocated.size_gap with hsmall | hlarge
    · omega
    · omega
  refine ⟨⟨?_, ?_⟩, h.pos, hint, ?_⟩
  · obtain ⟨k, hk⟩ := h.allocated.size
    refine ⟨k + 1, ?_⟩
    rw [hdouble, hk, Nat.pow_succ]
    omega
  · have hdata := h.allocated.data
    rw [hdouble]
    simp only [Buffer.doubled, List.length_append, List.length_take, List.length_map,
      List.length_range']
    omega
  · obtain ⟨after, hafter⟩ := h.data
    have hgot : got.length ≤ 2 * b.size % 2 ^ 32 := h.pos ▸ hpos
    simp only [Buffer.doubled, hafter, List.take_append, List.take_of_length_le hgot,
      List.append_assoc]
    exact ⟨_, rfl⟩

/-- Making room keeps what was received. -/
theorem growBuffer_soFar {peer : Peer} {got : Text} (fuel : Nat) : ∀ {b b₁ : Buffer},
    SoFar got b → growBuffer peer fuel b = some b₁ → SoFar got b₁ ∧ 256 ≤ b₁.room := by
  induction fuel with
  | zero => exact fun _ hgrow => nomatch hgrow
  | succ fuel ih =>
      intro b b₁ h hgrow
      rw [growBuffer] at hgrow
      split at hgrow
      · next hroom =>
          split at hgrow
          · next hgrant => exact ih (h.doubled hroom hgrant.1) hgrow
          · cases hgrow
      · next hroom =>
          cases hgrow
          exact ⟨h, by omega⟩

/-! ## One read -/

/-- A read that fails is counted as minus one byte. -/
theorem readStep_failed {errno : Errno} {retries : Nat} {rest : Text} {b : Buffer}
    (hint : b.pos < 2 ^ 31) (hlt : b.pos ≤ b.data.length) :
    readStep (.failed errno) retries rest b
      = if b.pos = 0 then .stop .fault
        else .parse rest { b with pos := b.pos - 1, data := overwrite b.data (b.pos - 1) [0] } := by
  have hwrap : Binary64.wrap32 (b.pos + (2 ^ 64 - 1) : Nat) = (b.pos : Int) - 1 := by
    unfold Binary64.wrap32
    rw [Int.bmod_def]
    omega
  have hkeep : overwrite b.data b.pos [] = b.data := by
    rw [overwrite, List.append_nil, List.length_nil, Nat.add_zero, List.take_append_drop]
  simp only [readStep, Answer.delivered, Answer.bytesRead, hwrap, hkeep]
  by_cases hzero : b.pos = 0
  · simp [hzero]
  · have hin : 0 ≤ (b.pos : Int) - 1 ∧ (b.pos : Int) - 1 < b.data.length := by omega
    have hpos : ((b.pos : Int) - 1).toNat = b.pos - 1 := by omega
    simp [hin, hpos, hzero]

theorem readStep_none {n retries : Nat} {rest : Text} {b : Buffer}
    (hnil : (Answer.bytes n).delivered rest b = []) :
    readStep (.bytes n) retries rest b = .stop (.error (- EIO)) := by
  simp [readStep, Answer.bytesRead, hnil]

/-- The buffer after the two stores of a read: what came, and the zero. -/
def Buffer.stored (b : Buffer) (bytes : Text) : Buffer :=
  { b with
    pos := b.pos + bytes.length
    data := overwrite (overwrite b.data b.pos bytes) (b.pos + bytes.length) [0] }

/-- A read that brings `bytes`. -/
theorem readStep_bytes {n retries : Nat} {rest bytes : Text} {b : Buffer}
    (hbytes : (Answer.bytes n).delivered rest b = bytes) (hne : bytes ≠ [])
    (hin : b.pos + bytes.length < b.data.length) (hsize : b.data.length < 2 ^ 32) :
    readStep (.bytes n) retries rest b
      = if b.pos + bytes.length < 2 ^ 31 then
          .parse (rest.drop bytes.length) (b.stored bytes)
        else .stop .fault := by
  have hlen := List.length_pos_iff.mpr hne
  have hover : (overwrite b.data b.pos bytes).length = b.data.length :=
    overwrite_length (by omega)
  have hwrap : Binary64.wrap32 (b.pos + bytes.length : Nat)
      = if b.pos + bytes.length < 2 ^ 31 then (b.pos + bytes.length : Int)
        else (b.pos + bytes.length : Int) - 2 ^ 32 := by
    unfold Binary64.wrap32
    rw [Int.bmod_def]
    split
    · omega
    · omega
  simp only [readStep, Answer.bytesRead, hbytes]
  rw [if_neg (by omega), if_neg (by omega), if_neg (by omega), hover, hwrap]
  by_cases hint : b.pos + bytes.length < 2 ^ 31
  · rw [if_pos hint, if_pos hint, if_pos (by omega)]
    congr 1
  · rw [if_neg hint, if_neg hint, if_neg (by omega)]

theorem delivered_length_le (n : Nat) (rest : Text) (b : Buffer) :
    ((Answer.bytes n).delivered rest b).length ≤ b.room.toNat := by
  rw [Answer.delivered, List.length_take]
  omega

theorem delivered_append (n : Nat) (rest : Text) (b : Buffer) :
    (Answer.bytes n).delivered rest b
      ++ rest.drop ((Answer.bytes n).delivered rest b).length = rest := by
  rw [Answer.delivered, List.length_take]
  conv_rhs => rw [← List.take_append_drop (min n b.room.toNat) rest]
  congr 1
  rcases Nat.le_total (min n b.room.toNat) rest.length with h | h
  · rw [Nat.min_eq_left h]
  · rw [Nat.min_eq_right h, List.drop_of_length_le h, List.drop_length]

theorem SoFar.holding {got bytes : Text} {b : Buffer} (h : SoFar got b)
    (hin : b.pos + bytes.length < b.size) : Holding (got ++ bytes) (b.stored bytes) := by
  obtain ⟨after, hafter⟩ := h.data
  have hlength := h.allocated.data
  rw [hafter, List.length_append, ← h.pos] at hlength
  obtain ⟨old, c, tail, rfl, hold⟩ : ∃ old c tail, after = old ++ c :: tail ∧
      old.length = bytes.length := by
    have hinside : bytes.length < after.length := by omega
    refine ⟨after.take bytes.length, after[bytes.length], after.drop (bytes.length + 1), ?_, ?_⟩
    · rw [← List.drop_eq_getElem_cons, List.take_append_drop]
    · rw [List.length_take]
      omega
  refine ⟨?_, hin, tail, ?_⟩
  · show b.pos + bytes.length = _
    rw [List.length_append, h.pos]
  · have hfirst : overwrite b.data b.pos bytes = got ++ bytes ++ c :: tail := by
      rw [hafter, ← List.append_assoc]
      exact overwrite_append h.pos hold
    have hsecond : overwrite (got ++ bytes ++ [c] ++ tail) (b.pos + bytes.length) [0]
        = got ++ bytes ++ [0] ++ tail :=
      overwrite_append (by rw [List.length_append, h.pos]) rfl
    rw [List.append_assoc _ [c], List.append_assoc _ [0]] at hsecond
    show overwrite (overwrite b.data b.pos bytes) _ [0] = _
    rw [hfirst]
    exact hsecond

/-- **One read** keeps exactly what was received in the buffer, if it does not fail and
the position stays an `int`, and only then. -/
theorem readOk_iff {all got rest : Text} {a : Answer} {retries : Nat} {b : Buffer}
    (h : SoFar got b) (hall : all = got ++ rest) (hroom : 256 ≤ b.room) :
    ReadOk all a retries rest b ↔ Counted a retries rest b := by
  have hsize := h.allocated.size_lt
  have hdata := h.allocated.data
  obtain ⟨hroomeq, hle⟩ := room_eq hsize h.int hroom
  cases a with
  | failed errno =>
      have hnot : ¬Counted (.failed errno) retries rest b := by
        rintro ⟨⟨n, heq⟩, -⟩
        cases heq
      refine iff_of_false ?_ hnot
      rw [ReadOk, readStep_failed h.int (by omega)]
      by_cases hzero : b.pos = 0
      · rw [if_pos hzero]
        rintro ⟨code, heq⟩
        cases heq
      · rw [if_neg hzero]
        rintro ⟨⟨n, heq⟩, -⟩
        cases heq
  | bytes n =>
      have hlen := delivered_length_le n rest b
      have happend := delivered_append n rest b
      rw [ReadOk, Counted]
      generalize hbytes : (Answer.bytes n).delivered rest b = bytes at hlen happend
      by_cases hne : bytes = []
      · subst hne
        rw [readStep_none hbytes]
        refine iff_of_true ⟨_, rfl⟩ ⟨⟨n, rfl⟩, ?_⟩
        have hint := h.int
        rw [List.length_nil]
        omega
      · rw [readStep_bytes hbytes hne (by omega) (by omega)]
        by_cases hint : b.pos + bytes.length < 2 ^ 31
        · rw [if_pos hint]
          refine iff_of_true ⟨⟨n, rfl⟩, got ++ bytes, ?_, h.holding (by omega)⟩
            ⟨⟨n, rfl⟩, hint⟩
          rw [hall, List.append_assoc, happend]
        · rw [if_neg hint]
          exact iff_of_false (fun ⟨_, heq⟩ => nomatch heq) fun hc => hint hc.2

/-- A counted read ends the call or keeps what was received. -/
theorem SoFar.next {got rest : Text} {a : Answer} {retries : Nat} {b : Buffer} (h : SoFar got b)
    (hroom : 256 ≤ b.room) (hc : Counted a retries rest b) :
    (∃ r, readStep a retries rest b = .stop r) ∨
      ∃ bytes rest' b', readStep a retries rest b = .parse rest' b' ∧ rest = bytes ++ rest' ∧
        SoFar (got ++ bytes) b' := by
  obtain ⟨⟨n, rfl⟩, hint⟩ := hc
  have hsize := h.allocated.size_lt
  have hdata := h.allocated.data
  obtain ⟨hroomeq, hle⟩ := room_eq hsize h.int hroom
  have hlen := delivered_length_le n rest b
  have happend := delivered_append n rest b
  generalize hbytes : (Answer.bytes n).delivered rest b = bytes at hlen happend hint
  by_cases hne : bytes = []
  · subst hne
    exact .inl ⟨_, readStep_none hbytes⟩
  · right
    refine ⟨bytes, _, b.stored bytes, ?_, happend.symm, ?_⟩
    · rw [readStep_bytes hbytes hne (by omega) (by omega), if_pos hint]
    · have hhold := h.holding (show b.pos + bytes.length < b.size by omega)
      obtain ⟨after, hafter⟩ := hhold.data
      have hfirst : (overwrite b.data b.pos bytes).length = b.data.length :=
        overwrite_length (by omega)
      refine ⟨⟨h.allocated.size, ?_⟩, hhold.pos, hint, 0 :: after, hafter⟩
      show (overwrite _ (b.pos + bytes.length) [0]).length = b.size
      rw [overwrite_length (by rw [hfirst, List.length_singleton]; omega), hfirst, hdata]

theorem everyRead_iff {peer : Peer} {all : Text} (as : List Answer) :
    ∀ {got rest : Text} {retries : Nat} {b : Buffer}, SoFar got b → all = got ++ rest →
      (EveryRead (ReadOk all) peer as retries rest b ↔ EveryRead Counted peer as retries rest b) := by
  induction as with
  | nil => exact fun _ _ => Iff.rfl
  | cons a as ih =>
      intro got rest retries b h hall
      rw [EveryRead, EveryRead]
      refine forall_congr' fun b₁ => imp_congr_right fun hmake => ?_
      obtain ⟨hso, hroom⟩ := growBuffer_soFar _ h hmake
      rw [readOk_iff hso hall hroom]
      refine and_congr_right fun hc => ?_
      rcases hso.next hroom hc with ⟨r, hstop⟩ | ⟨bytes, rest', b', hparse, hrest, hso'⟩
      · rw [hstop]
        exact Iff.rfl
      · rw [hparse]
        refine imp_congr_right fun _ => ih hso' ?_
        rw [hall, hrest, List.append_assoc]

/-- In every run of reads, the position stays inside the buffer, the buffer holds
exactly what was received and a zero, and a failed read is retried on the same buffer or
ends the call, exactly when no read fails and the position stays an `int`. -/
theorem receive_buffer_iff (peer : Peer) (as : List Answer) (b : Buffer) (h : Allocated b)
    (hpos : b.pos = 0) :
    EveryRead (ReadOk peer.rest) peer as 100 peer.rest b
      ↔ EveryRead Counted peer as 100 peer.rest b :=
  @everyRead_iff peer peer.rest as [] peer.rest 100 b
    ⟨h, hpos, by omega, b.data, rfl⟩ rfl

/-- The buffer of `jrpc_client_init`. -/
def initialBuffer : Buffer := ⟨0, 1500, List.replicate 1500 0⟩

theorem allocated_initial : Allocated initialBuffer :=
  ⟨⟨0, rfl⟩, by rw [initialBuffer, List.length_replicate]⟩

/-- Two reads of the buffer of `jrpc_client_init`, and the end of the stream. -/
theorem receive_buffer_two_reads :
    EveryRead (ReadOk [123, 125]) ⟨default, fun _ => true, fun _ => 0, [123, 125], []⟩
        [.bytes 1, .bytes 1, .bytes 0] 100 [123, 125] initialBuffer
      ↔ EveryRead Counted ⟨default, fun _ => true, fun _ => 0, [123, 125], []⟩
        [.bytes 1, .bytes 1, .bytes 0] 100 [123, 125] initialBuffer :=
  receive_buffer_iff ⟨default, fun _ => true, fun _ => 0, [123, 125], []⟩
    [.bytes 1, .bytes 1, .bytes 0] initialBuffer allocated_initial rfl

/-- A first read that is interrupted is not retried: the zero goes to `buf->data[-1]`. -/
theorem interrupted_not_ok :
    ¬EveryRead (ReadOk [123, 125]) ⟨default, fun _ => true, fun _ => 0, [123, 125], []⟩
        [.failed .eintr, .bytes 2] 100 [123, 125] initialBuffer := by
  intro h
  have hmake : ∀ peer, makeRoom peer initialBuffer = some initialBuffer := by
    intro peer
    show growBuffer peer (32 + 1) initialBuffer = some initialBuffer
    rw [growBuffer, if_neg (by decide)]
  have hok := (h initialBuffer (hmake _)).1
  rw [ReadOk, readStep_failed (by decide) (Nat.zero_le _),
    if_pos (show initialBuffer.pos = 0 from rfl)] at hok
  obtain ⟨code, heq⟩ := hok
  cases heq

/-! ## The loop without `errno` -/

theorem parseText_congr {libc : Libc} {b : Buffer} {more more' : Buffer → Received}
    (h : more b = more' b) : parseText libc more b = parseText libc more' b := by
  unfold parseText
  rw [h]

/-- The text without its last byte, after a read that failed. -/
theorem SoFar.failed {got : Text} {b : Buffer} (h : SoFar got b) (hne : b.pos ≠ 0) :
    SoFar got.dropLast
      { b with pos := b.pos - 1, data := overwrite b.data (b.pos - 1) [0] } := by
  obtain ⟨after, hafter⟩ := h.data
  have hint := h.int
  have hlen := h.pos
  have hgot : got ≠ [] := by
    rintro rfl
    exact hne hlen
  have hover : overwrite b.data (b.pos - 1) [0] = got.dropLast ++ ([0] ++ after) := by
    rw [hafter, ← List.append_assoc]
    conv_lhs => rw [← List.dropLast_append_getLast hgot]
    exact overwrite_append (by rw [List.length_dropLast, hlen]) rfl
  refine ⟨⟨h.allocated.size, ?_⟩, ?_, ?_, [0] ++ after, hover⟩
  · show (overwrite b.data (b.pos - 1) [0]).length = b.size
    have hroom : b.pos - 1 + ([0] : Text).length ≤ b.data.length := by
      rw [hafter, List.length_append, List.length_singleton]
      omega
    rw [overwrite_length hroom, h.allocated.data]
  · show b.pos - 1 = _
    rw [List.length_dropLast, hlen]
  · show b.pos - 1 < 2 ^ 31
    omega

/-- The branch for a failed read is dead, so that `errno` and the retries decide nothing. -/
theorem receiveAnswers_eq {peer : Peer} (as : List Answer) :
    ∀ {got rest : Text} {retries : Nat} {b : Buffer}, SoFar got b →
      receiveAnswers peer as retries rest b = receive peer (as.map Answer.read) rest b := by
  induction as with
  | nil => exact fun _ => rfl
  | cons a as ih =>
      intro got rest retries b h
      rw [receiveAnswers, List.map_cons, receive, turn]
      cases hmake : makeRoom peer b with
      | none => rfl
      | some b₁ =>
          obtain ⟨hso, hroom⟩ := growBuffer_soFar _ h hmake
          have hsize := hso.allocated.size_lt
          have hdata := hso.allocated.data
          have hint := hso.int
          obtain ⟨hroomeq, hle⟩ := room_eq hsize hint hroom
          simp only
          cases a with
          | failed errno =>
              rw [readStep_failed hint (by omega)]
              simp only [Answer.read]
              by_cases hzero : b₁.pos = 0
              · rw [if_pos hzero, if_pos hzero, ReadResult.proceed]
              · rw [if_neg hzero, if_neg hzero, ReadResult.proceed, parseBuffer, terminate,
                  if_pos (show b₁.pos - 1 < b₁.data.length by omega)]
                exact parseText_congr (ih (hso.failed hzero))
          | bytes n =>
              have hlen := delivered_length_le n rest b₁
              simp only [Answer.read]
              generalize hbytes : rest.take (min n b₁.room.toNat) = bytes
              have hbytes' : (Answer.bytes n).delivered rest b₁ = bytes := hbytes
              rw [hbytes'] at hlen
              by_cases hne : bytes = []
              · subst hne
                rw [readStep_none hbytes', if_pos rfl, ReadResult.proceed]
              · rw [readStep_bytes hbytes' hne (by omega) (by omega), if_neg hne]
                by_cases hlt : b₁.pos + bytes.length < 2 ^ 31
                · have hfirst : (overwrite b₁.data b₁.pos bytes).length = b₁.data.length :=
                    overwrite_length (by omega)
                  rw [if_pos hlt, if_pos ⟨hlt, by omega⟩, ReadResult.proceed, parseBuffer,
                    terminate, if_pos (show b₁.pos + bytes.length < _ by rw [hfirst]; omega)]
                  obtain ⟨r, hstop⟩ | ⟨bytes', rest', b', hparse, -, hso'⟩ :=
                    @SoFar.next got rest (.bytes n) retries b₁ hso hroom
                      ⟨⟨n, rfl⟩, by rw [hbytes']; exact hlt⟩
                  · rw [readStep_bytes hbytes' hne (by omega) (by omega), if_pos hlt] at hstop
                    cases hstop
                  · rw [readStep_bytes hbytes' hne (by omega) (by omega), if_pos hlt] at hparse
                    cases hparse
                    exact parseText_congr (ih hso')
                · rw [if_neg hlt, if_neg fun hboth => hlt hboth.1, ReadResult.proceed]

end Libubox.Jsonrpc
