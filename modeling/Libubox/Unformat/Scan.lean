import Libubox.Lib.Binary64
import Libubox.Unformat.Moves

/-!
# Programs over an input

The functions of `unformat.c` take an input and a `va_list`; a `Parser` is such a
function, with the variables its pointers point to as state.  A parser is
`Good` if it returns and all it does to the input are moves.

Every loop over the characters of an input is a `scan`.
-/

namespace Libubox.Unformat

/-! ## Parsers -/

/-- What a variable holds. -/
inductive Datum
  | integer (bytes value : Nat)
  | float (value : Binary64.Double)
  | string (text : List UInt8)
  | vector (data : List UInt8)

/-- An argument of a variadic call: an `int`, a pointer to a variable (`none` is
the null pointer) or a user's parse function. -/
inductive Arg
  | int (n : Int)
  | pointer (var : Option Nat)
  | function (k : Nat)

/-- `mallocs` tells which calls of `malloc` succeed. -/
structure State where
  input : Input
  va : List Arg
  vars : Nat → Datum
  mallocs : Nat → Bool
  mallocCalls : Nat

/-- Why a call has no result: it is undefined in C, or the model gave up. -/
inductive Fault
  | undefined
  | noFuel

abbrev Parser := StateT State (Except Fault)

def undefined {α : Type} : Parser α := fun _ => .error .undefined

/-- `va_arg(*va, int)`. -/
def vaInt : Parser Int := fun s =>
  match s.va with
  | .int n :: va => .ok (n, { s with va })
  | _ => .error .undefined

/-- `va_arg` of a pointer to a variable. -/
def vaPointer : Parser (Option Nat) := fun s =>
  match s.va with
  | .pointer var :: va => .ok (var, { s with va })
  | _ => .error .undefined

/-- `va_arg(*va, unformat_function_t *)`. -/
def vaFunction : Parser Nat := fun s =>
  match s.va with
  | .function k :: va => .ok (k, { s with va })
  | _ => .error .undefined

/-- A store through a pointer. -/
def store (var : Option Nat) (value : Datum) : Parser Unit := fun s =>
  match var with
  | none => .error .undefined
  | some v => .ok ((), { s with vars := Function.update s.vars v value })

/-- The `int` a pointer points to. -/
def loadInt (var : Option Nat) : Parser Nat := fun s =>
  match var.map s.vars with
  | some (.integer 4 value) => .ok (value, s)
  | _ => .error .undefined

/-- Whether `malloc` gives a block. -/
def malloc : Parser Bool := fun s =>
  .ok (s.mallocs s.mallocCalls, { s with mallocCalls := s.mallocCalls + 1 })

/-! ## Loops over the input -/

/-- What a loop does after it got a character: go on, leave (with the character
put back or not), leave for the error exit, or an undefined access. -/
inductive Next (α : Type)
  | more (a : α)
  | stop (a : α)
  | putBack (a : α)
  | error
  | fault

/-- How a loop was left. -/
inductive Scanned (α : Type)
  | atEnd (a : α)
  | done (a : α)
  | error

def scanFrom {α : Type} (step : α → UInt8 → Next α) :
    Nat → α → Input → Except Fault (Scanned α × Input)
  | 0, _, _ => .error .noFuel
  | fuel + 1, a, i =>
      match unformatGetInput i with
      | none => .error .undefined
      | some (none, i) => .ok (.atEnd a, i)
      | some (some c, i) =>
          match step a c with
          | .more a => scanFrom step fuel a i
          | .stop a => .ok (.done a, i)
          | .putBack a => .ok (.done a, unformatPutInput i)
          | .error => .ok (.error, i)
          | .fault => .error .undefined

/-- A loop `while ((c = unformat_get_input(input)) != UNFORMAT_END_OF_INPUT)`. -/
def scan {α : Type} (step : α → UInt8 → Next α) (a : α) : Parser (Scanned α) := fun s =>
  (scanFrom step s.input.fuel a s.input).map fun (r, input) => (r, { s with input })

/-! ## Good parsers -/

/-- The outcome of a parser that started at `i`. -/
def GoodFrom {α : Type} (i : Input) : Except Fault (α × State) → Prop
  | .ok (_, s) => Moves i s.input
  | .error e => e ≠ .noFuel

/-- The parser returns, and has moved over the input. -/
def Good {α : Type} (x : Parser α) : Prop :=
  ∀ s : State, Ok s.input → GoodFrom s.input (x s)

variable {α β : Type}

theorem Good.moves {x : Parser α} (h : Good x) {s s' : State} {a : α} (hok : Ok s.input)
    (hx : x s = .ok (a, s')) : Moves s.input s'.input := by
  have hgood := h s hok
  rw [hx] at hgood
  exact hgood

theorem good_pure (a : α) : Good (pure a : Parser α) := fun s _ => Moves.refl s.input

theorem good_undefined : Good (undefined : Parser α) := by
  intro s _ h
  cases h

/-- The result of a parser has a property. -/
def Ensures (x : Parser α) (P : α → Prop) : Prop :=
  ∀ (s s' : State) (a : α), x s = .ok (a, s') → P a

theorem Ensures.bind_of {x : Parser α} {f : α → Parser β} {P : α → Prop} {Q : β → Prop}
    (hx : Ensures x P) (hf : ∀ a, P a → Ensures (f a) Q) : Ensures (x >>= f) Q := by
  intro s s' b hb
  change (x s >>= fun p => f p.1 p.2) = .ok (b, s') at hb
  cases hxs : x s with
  | error e =>
      rw [hxs] at hb
      cases hb
  | ok p =>
      rw [hxs] at hb
      exact hf p.1 (hx s p.2 p.1 hxs) p.2 s' b hb

theorem Ensures.bind {x : Parser α} {f : α → Parser β} {Q : β → Prop}
    (hf : ∀ a, Ensures (f a) Q) : Ensures (x >>= f) Q :=
  Ensures.bind_of (P := fun _ => True) (fun _ _ _ _ => trivial) fun a _ => hf a

theorem ensures_pure {a : α} {P : α → Prop} (h : P a) : Ensures (pure a) P := by
  intro s s' b hb
  cases hb
  exact h

theorem ensures_ite {p : Prop} [Decidable p] {x y : Parser α} {P : α → Prop}
    (hx : p → Ensures x P) (hy : ¬ p → Ensures y P) : Ensures (if p then x else y) P := by
  split
  · next h => exact hx h
  · next h => exact hy h

theorem Good.bind_of {x : Parser α} {f : α → Parser β} {P : α → Prop} (hx : Good x)
    (hP : Ensures x P) (hf : ∀ a, P a → Good (f a)) : Good (x >>= f) := by
  intro s hok
  show GoodFrom s.input (x s >>= fun p => f p.1 p.2)
  have hgood := hx s hok
  cases hxs : x s with
  | error e =>
      rw [hxs] at hgood
      exact hgood
  | ok p =>
      obtain ⟨a, s₁⟩ := p
      have hmoves : Moves s.input s₁.input := hx.moves hok hxs
      have hgood₁ := hf a (hP s s₁ a hxs) s₁ (hmoves.ok hok).1
      show GoodFrom s.input (f a s₁)
      cases hfs : f a s₁ with
      | error e =>
          rw [hfs] at hgood₁
          exact hgood₁
      | ok q =>
          rw [hfs] at hgood₁
          exact hmoves.trans hgood₁

theorem Good.bind {x : Parser α} {f : α → Parser β} (hx : Good x) (hf : ∀ a, Good (f a)) :
    Good (x >>= f) :=
  hx.bind_of (P := fun _ => True) (fun _ _ _ _ => trivial) fun a _ => hf a

theorem good_ite {p : Prop} [Decidable p] {x y : Parser α} (hx : p → Good x) (hy : ¬ p → Good y) :
    Good (if p then x else y) := by
  split
  · next h => exact hx h
  · next h => exact hy h

theorem good_vaInt : Good vaInt := by
  intro s _
  unfold vaInt
  split
  · exact Moves.refl _
  · exact fun h => nomatch h

theorem good_vaPointer : Good vaPointer := by
  intro s _
  unfold vaPointer
  split
  · exact Moves.refl _
  · exact fun h => nomatch h

theorem good_vaFunction : Good vaFunction := by
  intro s _
  unfold vaFunction
  split
  · exact Moves.refl _
  · exact fun h => nomatch h

theorem good_store (var : Option Nat) (value : Datum) : Good (store var value) := by
  intro s _
  unfold store
  split
  · exact fun h => nomatch h
  · exact Moves.refl _

theorem good_loadInt (var : Option Nat) : Good (loadInt var) := by
  intro s _
  unfold loadInt
  split
  · exact Moves.refl _
  · exact fun h => nomatch h

theorem good_malloc : Good malloc := fun s _ => Moves.refl s.input

/-! ## Loops are good -/

variable {i j : Input}

theorem Got.index_pos {c : UInt8} (h : Ok i) (hgot : Got i (some c) j) :
    j.index ≠ END_OF_INPUT ∧ 0 < j.index ∧ ∀ m ∈ j.marks, m < j.index := by
  have hlt := h.len_lt_end
  cases hgot with
  | buffered c hbuffered hunread =>
      refine ⟨by show i.index + 1 ≠ _; omega, Nat.succ_pos _, ?_⟩
      intro m hm
      exact Nat.lt_succ_of_le ((List.pairwise_append.mp h.sorted).2.2 m hm i.index (by simp))
  | refilled c bytes hfull hbytes =>
      have hindex : i.filled.index = i.bufferLen - i.firstMark := by simp [Input.filled, hbytes]
      refine ⟨by show i.filled.index + 1 ≠ _; omega, Nat.succ_pos _, ?_⟩
      intro m hm
      have hsorted := (h.filled hfull).sorted
      exact Nat.lt_succ_of_le ((List.pairwise_append.mp hsorted).2.2 m hm i.filled.index (by simp))

/-- A loop over an input returns, since each turn takes a character from it. -/
theorem scanFrom_good (step : α → UInt8 → Next α) {fuel : Nat} : ∀ (a : α) {i : Input}, Ok i →
    i.left.length < fuel → match scanFrom step fuel a i with
      | .ok (_, j) => Moves i j
      | .error e => e ≠ .noFuel := by
  induction fuel with
  | zero => intro a i _ hfuel; omega
  | succ fuel ih =>
      intro a i h hfuel
      obtain ⟨c, j, hget, hgot⟩ := h.got
      rw [scanFrom, hget]
      cases c with
      | none => exact .get hget
      | some c =>
          simp only
          cases hstep : step a c with
          | more a =>
              have hleft := (hgot.left h).1
              rw [hleft] at hfuel
              simp only [Option.toList_some, List.cons_append, List.nil_append, List.length_cons]
                at hfuel
              have hgood := ih a (hgot.ok h) (by omega)
              simp only
              cases hrest : scanFrom step fuel a j with
              | error e =>
                  rw [hrest] at hgood
                  exact hgood
              | ok p =>
                  rw [hrest] at hgood
                  exact (Moves.get hget).trans hgood
          | stop a => exact .get hget
          | putBack a =>
              obtain ⟨hend, hpos, hmarks⟩ := hgot.index_pos h
              exact (Moves.get hget).trans (.put hend hpos hmarks)
          | error => exact .get hget
          | fault => exact fun h => nomatch h

theorem good_scan (step : α → UInt8 → Next α) (a : α) : Good (scan step a) := by
  intro s hok
  have hgood := scanFrom_good step a hok s.input.left_lt_fuel
  unfold scan
  cases hscan : scanFrom step s.input.fuel a s.input with
  | error e =>
      rw [hscan] at hgood
      exact hgood
  | ok p =>
      rw [hscan] at hgood
      exact hgood

end Libubox.Unformat
