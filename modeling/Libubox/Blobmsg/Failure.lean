import Libubox.Blobmsg.Build

/-!
# Calls that cannot grow the buffer

What an encoder call leaves behind when `buf->grow` fails.  Every call except
`blob_nest_start` reports the failure and changes nothing, so that the run goes on
as if the call had not been made.  `blob_nest_start` stores the `NULL` it got from
`blob_new` in `buf->head` before it looks at it (`failures_atomic_iff`).
-/

namespace Libubox.Blobmsg

open Bytes Blob

/-! ## The calls -/

/-- The calls that add an attribute.  `reserve` is `blob_put` without data. -/
inductive AddCall where
  | put (id : Nat) (data : Mem)
  | reserve (id len : Nat)
  | putRaw (data : Mem)
  | nestStart (id : Nat)
  | addField (type : Nat) (name : Option Mem) (data : Mem)
  | openNested (name : Option Mem) (array : Bool)
  | allocStringBuffer (name : Option Mem) (maxlen : Nat)

namespace AddCall

/-- The call, with `none` for a result of `NULL` or `-1`. -/
def run (b : BlobBuf) : AddCall → Option (Option Nat × BlobBuf)
  | put id data => blobPut b id data
  | reserve id len => blobNew b id len
  | putRaw data => blobPutRaw b data
  | nestStart id => blobNestStart b id
  | addField type name data =>
      (blobmsgAddField b type name data).map fun (ok, b) => (if ok then some 0 else none, b)
  | openNested name array => blobmsgOpenNested b name array
  | allocStringBuffer name maxlen => blobmsgAllocStringBuffer b name maxlen

/-- The payload the call asks `blob_add` for. -/
def payload : AddCall → Nat
  | put _ data => data.length
  | reserve _ len => len
  | putRaw data => data.length - 4
  | nestStart _ => 0
  | addField _ name data => blobmsgHdrlen (name.getD []).length + data.length
  | openNested name _ => blobmsgHdrlen (name.getD []).length
  | allocStringBuffer name maxlen => blobmsgHdrlen (name.getD []).length + maxlen

/-- `blob_put_raw` looks at the length first. -/
def reachesAdd : AddCall → Bool
  | putRaw data => 4 ≤ data.length
  | _ => true

/-- The cookie the caller saves. -/
def saved (result : Option Nat) : AddCall → List Nat
  | nestStart _ => result.toList
  | openNested _ _ => result.toList
  | _ => []

/-- The call needs more room, and `buf->grow` does not get it. -/
def GrowFails (b : BlobBuf) (c : AddCall) : Prop :=
  b.head ≠ 0 ∧ c.reachesAdd = true ∧ b.realloc 0 = none ∧
    ((blobPadLen (b.ptr b.head)).any fun len =>
      b.buflen < attrToOffset b (b.head + len) + 4 + c.payload) = true

instance (b : BlobBuf) (c : AddCall) : Decidable (c.GrowFails b) :=
  inferInstanceAs (Decidable (_ ∧ _ ∧ _ ∧ _))

end AddCall

/-! ## One failed call -/

/-- The buffer after a growth that failed. -/
def refused (b : BlobBuf) : BlobBuf := { b with realloc := fun k => b.realloc (k + 1) }

theorem blobAdd_refused {b : BlobBuf} {pos id payload : Nat} (hnone : b.realloc 0 = none)
    (hroom : b.buflen < attrToOffset b pos + 4 + payload) :
    blobAdd b pos id payload = some (none, refused b) := by
  have hadd : blobAddRoom b pos payload = (none, refused b) := by
    simp only [blobAddRoom, if_pos hroom, blobBufGrow, blobBufferGrow, hnone]
    rfl
  rw [blobAdd, hadd]

theorem blobNew_refused {b : BlobBuf} {id len payload : Nat} (hnone : b.realloc 0 = none)
    (hlen : blobPadLen (b.ptr b.head) = some len)
    (hroom : b.buflen < attrToOffset b (b.head + len) + 4 + payload) :
    blobNew b id payload = some (none, refused b) := by
  rw [blobNew, hlen, Option.bind_some, blobAdd_refused hnone hroom, Option.bind_some]

theorem blobmsgNew_refused {b : BlobBuf} {type len payload : Nat} {name : Option Mem}
    (hnone : b.realloc 0 = none) (hlen : blobPadLen (b.ptr b.head) = some len)
    (hroom : b.buflen
      < attrToOffset b (b.head + len) + 4 + (blobmsgHdrlen (name.getD []).length + payload)) :
    blobmsgNew b type name payload = some (none, refused b) := by
  rw [blobmsgNew, blobNew_refused hnone hlen hroom, Option.bind_some]

/-- What is left of the buffer after a failed call. -/
def AddCall.left (b : BlobBuf) : AddCall → BlobBuf
  | nestStart _ => { refused b with head := 0 }
  | _ => refused b

/-- **One failed call**: it reports the failure, and only `blob_nest_start` moves the head. -/
theorem AddCall.run_growFails {b : BlobBuf} {c : AddCall} (h : c.GrowFails b) :
    c.run b = some (none, c.left b) := by
  obtain ⟨-, hreach, hnone, hany⟩ := h
  obtain ⟨len, hlen, hany⟩ := (Option.any_eq_true _ _).mp hany
  have hroom := of_decide_eq_true hany
  cases c with
  | put id data =>
      have hnew : blobNew b id data.length = some (none, refused b) :=
        blobNew_refused hnone hlen hroom
      rw [run, blobPut, hnew]
      rfl
  | reserve id n =>
      exact blobNew_refused hnone hlen hroom
  | putRaw data =>
      have hlt : ¬data.length < 4 := Nat.not_lt.mpr (of_decide_eq_true hreach)
      have hadd : blobAdd b (b.head + len) 0 (data.length - 4) = some (none, refused b) :=
        blobAdd_refused hnone hroom
      rw [run, blobPutRaw, if_neg hlt, hlen, Option.bind_some, hadd]
      rfl
  | nestStart id =>
      have hnew : blobNew b id 0 = some (none, refused b) := blobNew_refused hnone hlen hroom
      rw [run, blobNestStart, hnew]
      rfl
  | addField type name data =>
      have hnew : blobmsgNew b type name data.length = some (none, refused b) :=
        blobmsgNew_refused hnone hlen hroom
      rw [run, blobmsgAddField, hnew]
      rfl
  | openNested name array =>
      have hnew : blobmsgNew b (if array then blobmsgTypeArray else blobmsgTypeTable)
          (some (name.getD [])) 0 = some (none, refused b) :=
        blobmsgNew_refused hnone hlen hroom
      rw [run, blobmsgOpenNested, hnew]
      rfl
  | allocStringBuffer name maxlen =>
      have hnew : blobmsgNew b blobmsgTypeString name maxlen = some (none, refused b) :=
        blobmsgNew_refused hnone hlen hroom
      rw [run, blobmsgAllocStringBuffer, hnew]
      rfl

/-- The call reports failure and leaves the head and the block as they are. -/
def Atomic (b : BlobBuf) (c : AddCall) : Prop :=
  ∃ b', c.run b = some (none, b') ∧ b'.head = b.head ∧ b'.buf = b.buf ∧ b'.mem = b.mem

theorem atomic_iff {b : BlobBuf} {c : AddCall} (h : c.GrowFails b) :
    Atomic b c ↔ ∀ id, c ≠ .nestStart id := by
  constructor
  · rintro ⟨b', hrun, hhead, -, -⟩ id rfl
    rw [AddCall.run_growFails h, Option.some.injEq, Prod.mk.injEq] at hrun
    rw [← hrun.2] at hhead
    exact h.1 hhead.symm
  · intro hc
    refine ⟨c.left b, AddCall.run_growFails h, ?_⟩
    cases c with
    | nestStart id => exact absurd rfl (hc id)
    | _ => exact ⟨rfl, rfl, rfl⟩

/-! ## Runs -/

/-- The buffer and the cookies of the containers the caller has open. -/
structure Encoder where
  head : Nat
  buf : Nat
  mem : Mem
  cookies : List Nat
deriving DecidableEq

/-- One step of the caller.  `grow` is what `realloc` answers if the step calls it. -/
inductive EncoderStep where
  | call (c : AddCall) (grow : Option Nat)
  | close
  | store (p : Nat) (bs : Mem)
  | reallocString (maxlen : Nat) (grow : Option Nat)
  | addString

namespace Encoder

def blobBuf (e : Encoder) (grow : Option Nat) : BlobBuf := ⟨e.head, e.buf, e.mem, fun _ => grow⟩

def ofBuf (b : BlobBuf) (cookies : List Nat) : Encoder := ⟨b.head, b.buf, b.mem, cookies⟩

def step (e : Encoder) : EncoderStep → Option Encoder
  | .call c grow =>
      (c.run (e.blobBuf grow)).map fun (result, b) => ofBuf b (c.saved result ++ e.cookies)
  | .close =>
      match e.cookies with
      | [] => none
      | cookie :: cookies => (blobNestEnd (e.blobBuf none) cookie).map fun b => ofBuf b cookies
  | .store p bs => ((e.blobBuf none).store p bs).map fun b => ofBuf b e.cookies
  | .reallocString maxlen grow =>
      (blobmsgReallocStringBuffer (e.blobBuf grow) maxlen).map fun (_, b) => ofBuf b e.cookies
  | .addString => (blobmsgAddStringBuffer (e.blobBuf none)).map fun b => ofBuf b e.cookies

def run (e : Encoder) : List EncoderStep → Option Encoder
  | [] => some e
  | s :: steps => (e.step s).bind fun e => e.run steps

/-- `s` is a call whose growth fails. -/
def Fails (e : Encoder) : EncoderStep → Prop
  | .call c grow => c.GrowFails (e.blobBuf grow)
  | _ => False

instance (e : Encoder) (s : EncoderStep) : Decidable (e.Fails s) :=
  match s with
  | .call c grow => inferInstanceAs (Decidable (c.GrowFails (e.blobBuf grow)))
  | .close => inferInstanceAs (Decidable False)
  | .store _ _ => inferInstanceAs (Decidable False)
  | .reallocString _ _ => inferInstanceAs (Decidable False)
  | .addString => inferInstanceAs (Decidable False)

/-- The steps of a run without the calls whose growth fails. -/
def kept (e : Encoder) : List EncoderStep → List EncoderStep
  | [] => []
  | s :: steps =>
      let rest := match e.step s with
        | some e => e.kept steps
        | none => steps
      if e.Fails s then rest else s :: rest

/-- Every call of the run whose growth fails is a call `P` holds of. -/
def EveryFailure (P : BlobBuf → AddCall → Prop) (e : Encoder) : List EncoderStep → Prop
  | [] => True
  | s :: steps =>
      (∀ c grow, s = .call c grow → c.GrowFails (e.blobBuf grow) → P (e.blobBuf grow) c) ∧
        ∀ e', e.step s = some e' → e'.EveryFailure P steps

theorem step_fails {e : Encoder} {s : EncoderStep} (h : e.Fails s)
    (hs : ∀ id grow, s ≠ .call (.nestStart id) grow) : e.step s = some e := by
  cases s with
  | call c grow =>
      have hrun := AddCall.run_growFails h
      rw [step, hrun]
      cases c with
      | nestStart id => exact absurd rfl (hs id grow)
      | _ => rfl
  | _ => exact absurd h id

theorem EveryFailure.congr {P Q : BlobBuf → AddCall → Prop}
    (hPQ : ∀ b c, c.GrowFails b → (P b c ↔ Q b c)) (steps : List EncoderStep) :
    ∀ e : Encoder, e.EveryFailure P steps ↔ e.EveryFailure Q steps := by
  induction steps with
  | nil =>
      intro e
      rfl
  | cons s steps ih =>
      intro e
      constructor
      · intro ⟨hfirst, hrest⟩
        exact ⟨fun c grow hs hf => (hPQ _ c hf).mp (hfirst c grow hs hf),
          fun e' he' => (ih e').mp (hrest e' he')⟩
      · intro ⟨hfirst, hrest⟩
        exact ⟨fun c grow hs hf => (hPQ _ c hf).mpr (hfirst c grow hs hf),
          fun e' he' => (ih e').mpr (hrest e' he')⟩

/-- Failed calls leave no trace in the run. -/
theorem run_kept (steps : List EncoderStep) : ∀ e : Encoder,
    e.EveryFailure (fun _ c => ∀ id, c ≠ .nestStart id) steps →
      e.run (e.kept steps) = e.run steps := by
  induction steps with
  | nil =>
      intro e _
      rfl
  | cons s steps ih =>
      intro e ⟨hfirst, hrest⟩
      rw [kept]
      by_cases hf : e.Fails s
      · have hstep : e.step s = some e := by
          apply step_fails hf
          rintro id grow rfl
          exact hfirst _ grow rfl hf id rfl
        simp only [if_pos hf, hstep, run, Option.bind_some]
        exact ih e (hrest e hstep)
      · rw [if_neg hf, run, run]
        cases hstep : e.step s with
        | none => rfl
        | some e' => exact ih e' (hrest e' hstep)

/-- In a run, every call whose growth fails reports it and leaves the head and the
block alone, and the run ends as if these calls had not been made, exactly when none
of them is a `blob_nest_start`. -/
theorem failures_atomic_iff (e : Encoder) (steps : List EncoderStep) :
    (e.EveryFailure Atomic steps ∧ e.run (e.kept steps) = e.run steps)
      ↔ e.EveryFailure (fun _ c => ∀ id, c ≠ .nestStart id) steps := by
  have hcongr := EveryFailure.congr (fun _ _ h => atomic_iff h) steps e
  constructor
  · intro ⟨hatomic, _⟩
    exact hcongr.mp hatomic
  · intro hnest
    exact ⟨hcongr.mpr hnest, run_kept steps e hnest⟩

/-- A block of 256 bytes that is full: 252 bytes of data after the header. -/
def full : Encoder := ⟨4096, 4096, header false 0 256 ++ List.replicate 252 0, []⟩

/-- A `blob_nest_start` that finds the block full and cannot grow it loses the head. -/
theorem nestStart_not_atomic :
    ∃ b', (AddCall.nestStart 1).GrowFails (full.blobBuf none) ∧
      (AddCall.nestStart 1).run (full.blobBuf none) = some (none, b') ∧
      b'.head = 0 ∧ full.head = 4096 ∧
      ¬(full.EveryFailure Atomic [.call (.nestStart 1) none] ∧
        full.run (full.kept [.call (.nestStart 1) none])
          = full.run [.call (.nestStart 1) none]) := by
  have hfails : (AddCall.nestStart 1).GrowFails (full.blobBuf none) := by
    refine ⟨by decide, rfl, rfl, ?_⟩
    have hlen : blobPadLen ((full.blobBuf none).ptr full.head) = some 256 := by
      have hptr : (full.blobBuf none).ptr full.head
          = header false 0 256 ++ List.replicate 252 0 := rfl
      rw [hptr, blobPadLen_header (by decide) (by decide)]
      rfl
    have hbuflen : (full.blobBuf none).buflen = 256 := by
      show (header false 0 256 ++ List.replicate 252 0).length = 256
      rw [List.length_append, header_length, List.length_replicate]
    rw [Option.any_eq_true]
    exact ⟨256, hlen, by rw [hbuflen]; decide⟩
  refine ⟨_, hfails, AddCall.run_growFails hfails, rfl, rfl, ?_⟩
  intro ⟨hatomic, _⟩
  exact (atomic_iff hfails).mp (hatomic.1 _ none rfl hfails) 1 rfl

end Encoder

end Libubox.Blobmsg
