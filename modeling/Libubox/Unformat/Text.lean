import Libubox.Unformat.Scan

/-!
# Loops over a text

A loop over an input does what it does over the characters that are left
(`scan_text`).
-/

namespace Libubox.Unformat

variable {α : Type}

/-- A loop over a text: how it was left, and the text behind it.  `none` is an
undefined access. -/
def scanText (step : α → UInt8 → Next α) (a : α) : List UInt8 → Option (Scanned α × List UInt8)
  | [] => some (.atEnd a, [])
  | c :: text =>
      match step a c with
      | .more a => scanText step a text
      | .stop a => some (.done a, text)
      | .putBack a => some (.done a, c :: text)
      | .error => some (.error, text)
      | .fault => none

variable {i j : Input}

/-- A character that was put back is left again. -/
theorem Got.left_put {c : UInt8} (h : Ok i) (hgot : Got i (some c) j) :
    (unformatPutInput j).left = c :: j.left := by
  have hj := hgot.ok h
  have hlt := hj.len_lt_end
  obtain ⟨hne, hpos, -⟩ := hgot.index_pos h
  have hle : j.index ≤ j.bufferLen := hj.index.resolve_right hne
  have hfetch : Input.fetch { j with index := j.index - 1 } = j.fetch :=
    Input.fetch_index hne (by omega)
  rw [hj.put_eq hne hpos, Input.left, Input.left, hfetch, ← List.cons_append]
  congr 1
  cases hgot with
  | buffered c hbuffered hunread => exact hunread
  | refilled c bytes hfull hbytes =>
      have hback : { i.filled with index := i.filled.index + 1 - 1 } = i.filled := rfl
      have hfilled := h.unread_filled (by simp [hbytes])
      rw [hbytes] at hfilled
      show Input.unread { i.filled with index := i.filled.index + 1 - 1 } = _
      rw [hback, hfilled, Input.unread_succ hfilled]

/-- **A loop over an input** goes over the characters that are left of it. -/
theorem scanFrom_text (step : α → UInt8 → Next α) {r : Scanned α} {rest : List UInt8} {fuel : Nat} :
    ∀ (a : α) {i : Input}, Ok i → i.left.length < fuel → scanText step a i.left = some (r, rest) →
      ∃ j, scanFrom step fuel a i = .ok (r, j) ∧ Ok j ∧ j.left = rest := by
  induction fuel with
  | zero => exact fun a i _ hfuel => absurd hfuel (Nat.not_lt_zero _)
  | succ fuel ih =>
      intro a i h hfuel htext
      obtain ⟨c, j, hget, hgot⟩ := h.got
      have hj := hgot.ok h
      obtain ⟨hleft, hnil⟩ := hgot.left h
      rw [scanFrom, hget]
      cases c with
      | none =>
          rw [hnil rfl] at htext hleft
          cases htext
          exact ⟨j, rfl, hj, hleft.symm⟩
      | some c =>
          obtain ⟨hne, hpos, hmarks⟩ := hgot.index_pos h
          change i.left = c :: j.left at hleft
          rw [hleft, List.length_cons] at hfuel
          rw [hleft, scanText] at htext
          simp only
          cases hstep : step a c with
          | more a =>
              rw [hstep] at htext
              exact ih a hj (by omega) htext
          | stop a =>
              rw [hstep] at htext
              cases htext
              exact ⟨j, rfl, hj, rfl⟩
          | putBack a =>
              rw [hstep] at htext
              cases htext
              exact ⟨_, rfl, hj.put hne hpos hmarks, hgot.left_put h⟩
          | error =>
              rw [hstep] at htext
              cases htext
              exact ⟨j, rfl, hj, rfl⟩
          | fault =>
              rw [hstep] at htext
              cases htext

theorem scan_text (step : α → UInt8 → Next α) {a : α} {s : State} {r : Scanned α}
    {rest : List UInt8} (h : Ok s.input) (htext : scanText step a s.input.left = some (r, rest)) :
    ∃ input, scan step a s = .ok (r, { s with input }) ∧ Ok input ∧ input.left = rest := by
  obtain ⟨j, hscan, hj, hleft⟩ := scanFrom_text step a h s.input.left_lt_fuel htext
  refine ⟨j, ?_, hj, hleft⟩
  unfold scan
  rw [hscan]
  rfl

end Libubox.Unformat
