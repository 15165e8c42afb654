import Libubox.JsonScript.Members

/-!
# The same element in two messages

Two messages that hold the same element at some place, with different bytes behind
it.  What the interpreter reads of a string or of the elements of an array is the
same in both; only the dispatch of an empty array looks at the bytes behind it
(`Peek`).
-/

namespace Libubox.JsonScript

open Bytes Blob Blobmsg Effect

variable {σ α : Type}

/-- All that the dispatch of an expression sees of an attribute. -/
def Peek (t₁ t₂ : Mem) : Prop :=
  blobId t₁ = blobId t₂ ∧ (blobId t₁ = some blobmsgTypeString → stringAt t₁ = stringAt t₂)

/-- The memory from the element on in two messages; `P` is about what follows. -/
def Twin (P : Mem → Mem → Prop) (e : Element) (m₁ m₂ : Mem) : Prop :=
  ∃ b t₁ t₂, Holds [e] b ∧ m₁ = b ++ t₁ ∧ m₂ = b ++ t₂ ∧ P t₁ t₂

/-- The elements of one array in two messages. -/
def Twins (P : Mem → Mem → Prop) : List (Element × Mem) → List (Element × Mem) → Prop :=
  List.Forall₂ fun p q => p.1 = q.1 ∧ Twin P p.1 p.2 q.2

variable {P : Mem → Mem → Prop} {e : Element} {m₁ m₂ : Mem}

theorem peek_holds {es : List Element} {b : Mem} (h : Holds (e :: es) b) (t₁ t₂ : Mem) :
    Peek (b ++ t₁) (b ++ t₂) := by
  obtain ⟨front, tail, rfl, hfront, -⟩ := h.cut
  simp only [List.append_assoc]
  refine ⟨by rw [hfront.blobId_eq, hfront.blobId_eq], fun hstring => ?_⟩
  rw [hfront.blobId_eq, Option.some.injEq] at hstring
  obtain ⟨str, -, hstr⟩ := stringAt_holds hfront hstring
  rw [hstr, hstr]

namespace Twin

theorem mono {Q : Mem → Mem → Prop} (hPQ : ∀ t₁ t₂, P t₁ t₂ → Q t₁ t₂) (h : Twin P e m₁ m₂) :
    Twin Q e m₁ m₂ := by
  obtain ⟨b, t₁, t₂, hb, h₁, h₂, hP⟩ := h
  exact ⟨b, t₁, t₂, hb, h₁, h₂, hPQ t₁ t₂ hP⟩

theorem blobId_left (h : Twin P e m₁ m₂) : blobId m₁ = some e.type := by
  obtain ⟨b, t₁, t₂, hb, rfl, -, -⟩ := h
  exact hb.blobId_eq t₁

theorem blobId_right (h : Twin P e m₁ m₂) : blobId m₂ = some e.type := by
  obtain ⟨b, t₁, t₂, hb, -, rfl, -⟩ := h
  exact hb.blobId_eq t₂

/-- The string in both. -/
theorem stringAt (h : Twin P e m₁ m₂) (he : e.type = blobmsgTypeString) :
    ∃ str, 0 ∉ str ∧ stringAt m₁ = some str ∧ JsonScript.stringAt m₂ = some str := by
  obtain ⟨b, t₁, t₂, hb, rfl, rfl, -⟩ := h
  obtain ⟨str, hzero, hstr⟩ := stringAt_holds hb he
  exact ⟨str, hzero, hstr t₁, hstr t₂⟩

theorem exists_nest (h : Twin P e m₁ m₂) (he : e.type = blobmsgTypeArray) :
    ∃ name children, e = .nest true name children := by
  obtain ⟨b, -, -, hb, -⟩ := h
  exact hb.nest_of_type he

theorem handleError_eq (h : Twin P e m₁ m₂) (c : Call σ) (msg : String) :
    handleError c msg m₁ = handleError c msg m₂ := by
  obtain ⟨b, t₁, t₂, hb, rfl, rfl, -⟩ := h
  rw [handleError, handleError, ownBytes_holds hb, ownBytes_holds hb]

theorem eqRegexAttr_eq (h : Twin P e m₁ m₂) (he : e.type = blobmsgTypeString) (c : Call σ)
    (var : Mem) (regex : Bool) : eqRegexAttr c var m₁ regex = eqRegexAttr c var m₂ regex := by
  obtain ⟨str, -, h₁, h₂⟩ := h.stringAt he
  obtain ⟨d₁, hd₁, hs₁⟩ := Option.bind_eq_some_iff.mp h₁
  obtain ⟨d₂, hd₂, hs₂⟩ := Option.bind_eq_some_iff.mp h₂
  rw [eqRegexAttr, eqRegexAttr, hd₁, hd₂, Option.bind_some, Option.bind_some, eqRegexCmp,
    eqRegexCmp, hs₁, hs₂]

end Twin

/-- The elements of an array in two messages. -/
theorem places_twins (hpeek : ∀ t₁ t₂, Peek t₁ t₂ → P t₁ t₂) {es : List Element} {b : Mem}
    (h : Holds es b) {t₁ t₂ : Mem} (hP : P t₁ t₂) :
    Twins P (places es (b ++ t₁)) (places es (b ++ t₂)) := by
  induction es generalizing b with
  | nil => exact .nil
  | cons e es ih =>
      obtain ⟨front, tail, rfl, hfront, htail⟩ := h.cut
      rw [List.append_assoc, List.append_assoc, places_cons hfront, places_cons hfront]
      refine .cons ⟨rfl, front, tail ++ t₁, tail ++ t₂, hfront, rfl, rfl, ?_⟩ (ih htail)
      cases es with
      | nil =>
          cases htail
          exact hP
      | cons e' es => exact hpeek _ _ (peek_holds htail t₁ t₂)

theorem loopOver_twins {body₁ body₂ : Nat → Mem → Script σ (Option α)}
    {ps qs : List (Element × Mem)} (h : Twins P ps qs)
    (hbody : ∀ i e m₁ m₂, Twin P e m₁ m₂ → body₁ i m₁ = body₂ i m₂) (i : Nat) :
    loopOver body₁ i (ps.map Prod.snd) = loopOver body₂ i (qs.map Prod.snd) := by
  induction h generalizing i with
  | nil => rfl
  | cons hp htail ih =>
      rw [List.map_cons, List.map_cons, loopOver, loopOver, hbody i _ _ _ hp.2, ih]

/-- A slot of a tuple in two messages, for an entry of the given type. -/
def SlotTwin (P : Mem → Mem → Prop) (type : Nat) (o₁ o₂ : Option Mem) : Prop :=
  o₁ = none ∧ o₂ = none ∨ ∃ e m₁ m₂, o₁ = some m₁ ∧ o₂ = some m₂ ∧
    (type = blobmsgTypeUnspec ∨ e.type = type) ∧ Twin P e m₁ m₂

theorem slot_cons_zero (o : Option Mem) (tb : List (Option Mem)) : slot (o :: tb) 0 = o := rfl

theorem slot_cons_succ (o : Option Mem) (tb : List (Option Mem)) (k : Nat) :
    slot (o :: tb) (k + 1) = slot tb k := rfl

theorem slot_pick {ps qs : List (Element × Mem)} (h : Twins P ps qs) (types : List Nat) (k : Nat) :
    SlotTwin P (types.getD k 0) (slot (pick types ps) k) (slot (pick types qs) k) := by
  induction h generalizing types k with
  | nil =>
      left
      rw [pick_nil, slot, List.getElem?_map]
      cases types[k]? <;> exact ⟨rfl, rfl⟩
  | @cons p q ps qs hp htail ih =>
      obtain ⟨e, m₁⟩ := p
      obtain ⟨e', m₂⟩ := q
      obtain ⟨rfl, htwin⟩ := hp
      cases types with
      | nil => exact .inl ⟨rfl, rfl⟩
      | cons type types =>
          rw [pick, pick]
          by_cases htype : type = blobmsgTypeUnspec ∨ e.type = type
          · rw [if_pos htype, if_pos htype]
            cases k with
            | zero => exact .inr ⟨e, m₁, m₂, rfl, rfl, htype, htwin⟩
            | succ k =>
                rw [slot_cons_succ, slot_cons_succ]
                exact ih types k
          · rw [if_neg htype, if_neg htype]
            exact ih (type :: types) k

/-! ## Arrays -/

section Arrays

variable {array : Bool} {name : Mem} {children : List Element}
  (h : Twin P (.nest array name children) m₁ m₂) (hpeek : ∀ t₁ t₂, Peek t₁ t₂ → P t₁ t₂)

include h hpeek

theorem Twin.forEachIn_eq {body₁ body₂ : Nat → Mem → Script σ (Option α)}
    (hbody : ∀ i e m₁ m₂, Twin P e m₁ m₂ → body₁ i m₁ = body₂ i m₂) :
    forEachIn body₁ m₁ = forEachIn body₂ m₂ := by
  obtain ⟨b, t₁, t₂, hb, rfl, rfl, hP⟩ := h
  obtain ⟨pad, inner, wf, hinner, rfl⟩ := hb.nest_eq
  rw [List.append_assoc, List.append_assoc, forEachIn_nest body₁ wf hinner,
    forEachIn_nest body₂ wf hinner]
  exact loopOver_twins (places_twins hpeek hinner hP) hbody 0

theorem Twin.parseTuple_eq (types : List Nat) (htypes : types ≠ []) :
    ∃ tb₁ tb₂, parseTuple types m₁ = some tb₁ ∧ parseTuple types m₂ = some tb₂ ∧
      ∀ k, SlotTwin P (types.getD k 0) (slot tb₁ k) (slot tb₂ k) := by
  obtain ⟨b, t₁, t₂, hb, rfl, rfl, hP⟩ := h
  obtain ⟨pad, inner, wf, hinner, rfl⟩ := hb.nest_eq
  rw [List.append_assoc, List.append_assoc]
  exact ⟨_, _, parseTuple_nest htypes wf hinner t₁, parseTuple_nest htypes wf hinner t₂,
    slot_pick (places_twins hpeek hinner hP) types⟩

end Arrays

end Libubox.JsonScript
