import Mathlib.Data.List.Basic
import Mathlib.Logic.Basic

/-!
# Memory that is written front to back

`Out` is memory of a fixed size with what was written to it so far; a store outside it
is `none`.  `Writes f t` says what a piece of a program writes, `Finishes f z t` that it
writes the last of it and the terminator `z`.  Pieces are put together by `bind`.
-/

namespace Writers

variable {α : Type*}

/-- Memory of `size` cells that is written from its start on. -/
structure Out (α : Type*) where
  size : Nat
  written : List α
  fits : written.length ≤ size

namespace Out

/-- Memory that nothing was written to. -/
def new (size : Nat) : Out α := ⟨size, [], Nat.zero_le size⟩

/-- The store of `s` at the end of what was written. -/
def put (o : Out α) (s : List α) : Option (Out α) :=
  if h : o.written.length + s.length ≤ o.size then
    some ⟨o.size, o.written ++ s, by rwa [List.length_append]⟩
  else none

/-- The store of a terminator that is written over by the next store. -/
def terminate (o : Out α) : Option (Out α) :=
  if o.written.length + 1 ≤ o.size then some o else none

/-- The store of `s` and of a terminator that is written over. -/
def strcpy (o : Out α) (s : List α) : Option (Out α) := (o.put s).bind terminate

end Out

/-- `f` writes `t`.  It has room enough if there is room for `t` and a terminator. -/
structure Writes (f : Out α → Option (Out α)) (t : List α) : Prop where
  succeeds : ∀ o : Out α, o.written.length + t.length + 1 ≤ o.size → ∃ o', f o = some o'
  written : ∀ o o', f o = some o' → o'.size = o.size ∧ o'.written = o.written ++ t

/-- `f` writes `t` and the terminator `z`, and needs room for just these. -/
structure Finishes (f : Out α → Option (Out α)) (z : α) (t : List α) : Prop where
  succeeds : ∀ o : Out α, o.written.length + t.length + 1 ≤ o.size → ∃ o', f o = some o'
  written : ∀ o o', f o = some o' → o'.size = o.size ∧ o'.written = o.written ++ (t ++ [z])

theorem writes_put (s : List α) : Writes (fun o => o.put s) s := by
  constructor
  · intro o h
    have hroom : o.written.length + s.length ≤ o.size := by omega
    exact ⟨_, dif_pos hroom⟩
  · intro o o' h
    simp only [Out.put] at h
    split at h
    · cases h
      exact ⟨rfl, rfl⟩
    · cases h

theorem writes_terminate : Writes (Out.terminate (α := α)) [] := by
  constructor
  · intro o h
    exact ⟨o, if_pos h⟩
  · intro o o' h
    simp only [Out.terminate] at h
    split at h
    · cases h
      exact ⟨rfl, (List.append_nil _).symm⟩
    · cases h

theorem writes_nothing : Writes (fun o : Out α => some o) [] := by
  constructor
  · exact fun o _ => ⟨o, rfl⟩
  · intro o o' h
    cases h
    exact ⟨rfl, (List.append_nil _).symm⟩

theorem Writes.bind {f g : Out α → Option (Out α)} {s t : List α} (hf : Writes f s)
    (hg : Writes g t) : Writes (fun o => (f o).bind g) (s ++ t) := by
  constructor
  · intro o h
    rw [List.length_append] at h
    obtain ⟨o₁, h₁⟩ := hf.succeeds o (by omega)
    obtain ⟨hsize, hwritten⟩ := hf.written o o₁ h₁
    obtain ⟨o', h'⟩ := hg.succeeds o₁ (by rw [hsize, hwritten, List.length_append]; omega)
    exact ⟨o', by rw [h₁, Option.bind_some, h']⟩
  · intro o o' h
    obtain ⟨o₁, h₁, h'⟩ := Option.bind_eq_some_iff.mp h
    obtain ⟨hsize, hwritten⟩ := hf.written o o₁ h₁
    obtain ⟨hsize', hwritten'⟩ := hg.written o₁ o' h'
    exact ⟨hsize'.trans hsize, by rw [hwritten', hwritten, List.append_assoc]⟩

theorem writes_strcpy (s : List α) : Writes (fun o => o.strcpy s) s := by
  have h := (writes_put s).bind writes_terminate
  rwa [List.append_nil] at h

/-- A piece that is there only under a condition. -/
theorem writes_ite {f : Out α → Option (Out α)} {t : List α} (hf : Writes f t) (p : Prop)
    [Decidable p] : Writes (fun o => if p then f o else some o) (if p then t else []) := by
  by_cases hp : p
  · simp only [if_pos hp]
    exact hf
  · simp only [if_neg hp]
    exact writes_nothing

theorem finishes_put (z : α) : Finishes (fun o => o.put [z]) z [] := by
  obtain ⟨-, hwritten⟩ := writes_put [z]
  constructor
  · intro o h
    exact ⟨_, dif_pos h⟩
  · exact hwritten

theorem Writes.finishes {f g : Out α → Option (Out α)} {s t : List α} {z : α} (hf : Writes f s)
    (hg : Finishes g z t) : Finishes (fun o => (f o).bind g) z (s ++ t) := by
  constructor
  · intro o h
    rw [List.length_append] at h
    obtain ⟨o₁, h₁⟩ := hf.succeeds o (by omega)
    obtain ⟨hsize, hwritten⟩ := hf.written o o₁ h₁
    obtain ⟨o', h'⟩ := hg.succeeds o₁ (by rw [hsize, hwritten, List.length_append]; omega)
    exact ⟨o', by rw [h₁, Option.bind_some, h']⟩
  · intro o o' h
    obtain ⟨o₁, h₁, h'⟩ := Option.bind_eq_some_iff.mp h
    obtain ⟨hsize, hwritten⟩ := hf.written o o₁ h₁
    obtain ⟨hsize', hwritten'⟩ := hg.written o₁ o' h'
    refine ⟨hsize'.trans hsize, ?_⟩
    rw [hwritten', hwritten, List.append_assoc, List.append_assoc]

/-- The whole of the memory is written. -/
theorem Finishes.new {f : Out α → Option (Out α)} {t : List α} {z : α} (hf : Finishes f z t) {size : Nat}
    (h : t.length + 1 ≤ size) : ∃ o, f (Out.new size) = some o ∧ o.written = t ++ [z] := by
  obtain ⟨o, ho⟩ := hf.succeeds (Out.new size) (by rwa [Out.new, List.length_nil, Nat.zero_add])
  exact ⟨o, ho, (hf.written _ o ho).2⟩

end Writers
