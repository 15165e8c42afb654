import Mathlib.Tactic.Common

/-!
# Computations that may stop

A computation over a state returns a value or stops on the way, because it
faults or because it runs out of fuel; either way the state it reached is kept.
So a computation that is cut off is a prefix of the longer one, and what is
shown for every state a computation can leave behind holds in the middle of it.

`Moves R m` says that `m` leads from any state only to states `R` allows.  With
a preorder `R` it is proved by following the `do` block: `Moves.bind`,
`Moves.need` and so on.
-/

namespace Effect

/-- A computation over the state `σ`; `none` where it stopped. -/
def Eff (σ α : Type) : Type := σ → Option α × σ

variable {σ α β : Type}

/-- Go on with `f` unless `m` stopped. -/
def Eff.bind (m : Eff σ α) (f : α → Eff σ β) : Eff σ β := fun s =>
  match m s with
  | (some a, s') => f a s'
  | (none, s') => (none, s')

instance : Monad (Eff σ) where
  pure a := fun s => (some a, s)
  bind := Eff.bind

/-- Stop here. -/
def stop : Eff σ α := fun s => (none, s)

/-- A value that may be missing. -/
def need (o : Option α) : Eff σ α := fun s => (o, s)

/-- The state. -/
def state : Eff σ σ := fun s => (some s, s)

/-- Change the state. -/
def change (f : σ → σ) : Eff σ Unit := fun s => (some (), f s)

variable {m : Eff σ α} {f : α → Eff σ β} {s s' : σ} {a : α} {o : Option α}

@[simp] theorem pure_apply (a : α) (s : σ) : (pure a : Eff σ α) s = (some a, s) := rfl

@[simp] theorem stop_apply (s : σ) : (stop : Eff σ α) s = (none, s) := rfl

@[simp] theorem need_apply (o : Option α) (s : σ) : (need o : Eff σ α) s = (o, s) := rfl

@[simp] theorem state_apply (s : σ) : (state : Eff σ σ) s = (some s, s) := rfl

@[simp] theorem change_apply (f : σ → σ) (s : σ) : change f s = (some (), f s) := rfl

theorem bind_apply (m : Eff σ α) (f : α → Eff σ β) (s : σ) : (m >>= f) s =
    match m s with
    | (some a, s') => f a s'
    | (none, s') => (none, s') := rfl

theorem bind_some (h : m s = (some a, s')) : (m >>= f) s = f a s' := by rw [bind_apply, h]

theorem bind_none (h : m s = (none, s')) : (m >>= f) s = (none, s') := by rw [bind_apply, h]

@[simp] theorem need_some_bind (a : α) (f : α → Eff σ β) : (need (some a) >>= f) = f a := rfl

@[simp] theorem need_none_bind (f : α → Eff σ β) : (need none >>= f) = stop := rfl

@[simp] theorem stop_bind (f : α → Eff σ β) : (stop >>= f) = stop := rfl

@[simp] theorem state_bind (f : σ → Eff σ β) (s : σ) : (state >>= f) s = f s s := rfl

@[simp] theorem change_bind (g : σ → σ) (f : Unit → Eff σ β) (s : σ) :
    (change g >>= f) s = f () (g s) := rfl

theorem bind_congr_apply {g : α → Eff σ β} {n : Eff σ α} {t : σ} (hmn : m s = n t)
    (hfg : ∀ a s', n t = (some a, s') → f a s' = g a s') : (m >>= f) s = (n >>= g) t := by
  rw [bind_apply, bind_apply, hmn]
  cases h : n t with
  | mk o s' =>
      cases o with
      | none => rfl
      | some a => exact hfg a s' h

theorem id_map_eff (m : Eff σ α) : id <$> m = m := by
  funext s
  change (match m s with
    | (some a, s') => (some (id a), s')
    | (none, s') => (none, s')) = m s
  rcases m s with ⟨_ | a, s'⟩ <;> rfl

theorem bind_assoc_eff {γ : Type} (m : Eff σ α) (f : α → Eff σ β) (g : β → Eff σ γ) :
    m >>= f >>= g = m >>= fun a => f a >>= g := by
  funext s
  change Eff.bind (Eff.bind m f) g s = Eff.bind m (fun a => Eff.bind (f a) g) s
  unfold Eff.bind
  rcases m s with ⟨_ | a, s'⟩ <;> rfl

instance : LawfulMonad (Eff σ) :=
  LawfulMonad.mk' _ id_map_eff (fun _ _ => rfl) bind_assoc_eff

/-! ## Where a computation leads -/

/-- From every state `m` leads to a state `R` allows, whether or not it stops. -/
def Moves (R : σ → σ → Prop) (m : Eff σ α) : Prop := ∀ s, R s (m s).2

namespace Moves

variable {R : σ → σ → Prop}

theorem pure [Std.Refl R] (a : α) : Moves R (Pure.pure a : Eff σ α) := fun s => Std.Refl.refl s

theorem stop [Std.Refl R] : Moves R (stop : Eff σ α) := fun s => Std.Refl.refl s

theorem need [Std.Refl R] (o : Option α) : Moves R (need o : Eff σ α) := fun s => Std.Refl.refl s

theorem state [Std.Refl R] : Moves R (state : Eff σ σ) := fun s => Std.Refl.refl s

/-- The second part only from the states the first one leads to. -/
theorem bind_of [IsTrans σ R] (hm : Moves R m)
    (hf : ∀ s a s', m s = (some a, s') → R s' (f a s').2) : Moves R (m >>= f) := by
  intro s
  have hs := hm s
  rw [bind_apply]
  rcases h : m s with ⟨_ | a, s'⟩
  · rw [h] at hs
    exact hs
  · rw [h] at hs
    exact IsTrans.trans _ _ _ hs (hf s a s' h)

theorem bind [IsTrans σ R] (hm : Moves R m) (hf : ∀ a, Moves R (f a)) : Moves R (m >>= f) :=
  hm.bind_of fun _ a s' _ => hf a s'

theorem map [Std.Refl R] [IsTrans σ R] (g : α → β) (hm : Moves R m) : Moves R (g <$> m) := by
  rw [← bind_pure_comp]
  exact hm.bind fun a => Moves.pure (g a)

theorem ite {c : Prop} [Decidable c] {n : Eff σ α} (hm : Moves R m) (hn : Moves R n) :
    Moves R (if c then m else n) := by
  split
  · exact hm
  · exact hn

theorem mono {S : σ → σ → Prop} (hRS : ∀ s s', R s s' → S s s') (hm : Moves R m) : Moves S m :=
  fun s => hRS s _ (hm s)

end Moves

/-- From every state `m` leads to a value, if any, and a state that `Q` allows. -/
def Leads (Q : σ → Option α → σ → Prop) (m : Eff σ α) : Prop := ∀ s, Q s (m s).1 (m s).2

namespace Leads

variable {Q : σ → Option α → σ → Prop} {U : σ → Option β → σ → Prop}

theorem bind (hm : Leads Q m) (hstop : ∀ s s', Q s none s' → U s none s')
    (hf : ∀ s a s', Q s (some a) s' → U s (f a s').1 (f a s').2) : Leads U (m >>= f) := by
  intro s
  have hs := hm s
  rw [bind_apply]
  rcases h : m s with ⟨_ | a, s'⟩
  · rw [h] at hs
    exact hstop s s' hs
  · rw [h] at hs
    exact hf s a s' hs

/-- A first part of which only the states it leads to matter. -/
theorem bind_moves {R : σ → σ → Prop} (hm : Moves R m)
    (hstop : ∀ s s', R s s' → U s none s')
    (hf : ∀ s a s', R s s' → U s (f a s').1 (f a s').2) : Leads U (m >>= f) := by
  apply bind (Q := fun s _ s' => R s s') hm hstop hf

theorem mono {T : σ → Option α → σ → Prop} (hQT : ∀ s o s', Q s o s' → T s o s')
    (hm : Leads Q m) : Leads T m := fun s => hQT s _ _ (hm s)

end Leads

/-- A value of `m`, if it has one, is as `P` says. -/
def Yields (P : α → Prop) (m : Eff σ α) : Prop := ∀ s a, (m s).1 = some a → P a

namespace Yields

variable {P : α → Prop} {Q : β → Prop}

theorem pure {a : α} (h : P a) : Yields P (Pure.pure a : Eff σ α) := by
  intro s b hb
  cases hb
  exact h

theorem need {o : Option α} (h : ∀ a, o = some a → P a) : Yields P (need o : Eff σ α) :=
  fun _ a ha => h a ha

theorem stop : Yields P (stop : Eff σ α) := fun _ _ h => nomatch h

theorem bind (hm : Yields P m) (hf : ∀ a, P a → Yields Q (f a)) : Yields Q (m >>= f) := by
  intro s b hb
  rw [bind_apply] at hb
  rcases h : m s with ⟨_ | a, s'⟩
  · rw [h] at hb
    cases hb
  · rw [h] at hb
    exact hf a (hm s a (by rw [h])) s' b hb

/-- A first part whose value does not matter. -/
theorem after (hf : ∀ a, Yields Q (f a)) : Yields Q (m >>= f) :=
  bind (P := fun _ => True) (fun _ _ _ => trivial) fun a _ => hf a

theorem ite {c : Prop} [Decidable c] {n : Eff σ α} (hm : Yields P m) (hn : Yields P n) :
    Yields P (if c then m else n) := by
  split
  · exact hm
  · exact hn

theorem map (g : α → β) (hm : Yields P m) (hPQ : ∀ a, P a → Q (g a)) : Yields Q (g <$> m) := by
  rw [← bind_pure_comp]
  exact hm.bind fun a ha => Yields.pure (hPQ a ha)

end Yields

/-- What follows matters only at the values `m` can have. -/
theorem Yields.bind_congr {P : α → Prop} {g : α → Eff σ β} (hm : Yields P m)
    (hfg : ∀ a, P a → f a = g a) : m >>= f = m >>= g := by
  funext s
  rw [bind_apply, bind_apply]
  rcases h : m s with ⟨_ | a, s'⟩
  · rfl
  · simp only
    rw [hfg a (hm s a (by rw [h]))]

/-! ## Short circuits -/

/-- Do one computation after the other up to the first whose value is not `skip`:
its number and its value. -/
def upTo [DecidableEq α] (skip : α) : Nat → List (Eff σ α) → Eff σ (Option (Nat × α))
  | _, [] => pure none
  | i, m :: ms => m >>= fun a => if a = skip then upTo skip (i + 1) ms else pure (some (i, a))

/-- With other values in their place the same computations are done. -/
theorem upTo_map [DecidableEq α] [DecidableEq β] {P : α → Prop} {ms : List (Eff σ α)} {skip : α}
    {g : α → β} (hms : ∀ m ∈ ms, Yields P m) (hg : ∀ a, P a → (g a = g skip ↔ a = skip))
    (i : Nat) : upTo (g skip) i (ms.map fun m => m >>= fun a => pure (g a)) =
      upTo skip i ms >>= fun o => pure (o.map fun p => (p.1, g p.2)) := by
  induction ms generalizing i with
  | nil => rfl
  | cons m ms ih =>
      have hrest := ih fun m' hm' => hms m' (List.mem_cons_of_mem m hm')
      rw [List.map_cons, upTo, upTo, bind_assoc, bind_assoc]
      refine (hms m List.mem_cons_self).bind_congr fun a ha => ?_
      rw [pure_bind]
      by_cases hskip : a = skip
      · rw [if_pos hskip, if_pos ((hg a ha).mpr hskip), hrest]
      · rw [if_neg hskip, if_neg fun h => hskip ((hg a ha).mp h), pure_bind]
        rfl

/-- From every state `m` has a value. -/
def Returns (m : Eff σ α) : Prop := ∀ s, ∃ a s', m s = (some a, s')

namespace Returns

theorem pure (a : α) : Returns (Pure.pure a : Eff σ α) := fun s => ⟨a, s, rfl⟩

/-- The second part for the values the first one can have. -/
theorem bind_of (hm : Returns m) (hf : ∀ s a s', m s = (some a, s') → Returns (f a)) :
    Returns (m >>= f) := by
  intro s
  obtain ⟨a, s', h⟩ := hm s
  obtain ⟨b, s'', hb⟩ := hf s a s' h s'
  exact ⟨b, s'', (bind_some h).trans hb⟩

theorem bind (hm : Returns m) (hf : ∀ a, Returns (f a)) : Returns (m >>= f) :=
  hm.bind_of fun _ a _ _ => hf a

theorem map (g : α → β) (hm : Returns m) : Returns (g <$> m) := by
  rw [← bind_pure_comp]
  exact hm.bind fun a => Returns.pure (g a)

theorem ite {c : Prop} [Decidable c] {n : Eff σ α} (hm : Returns m) (hn : Returns n) :
    Returns (if c then m else n) := by
  split
  · exact hm
  · exact hn

end Returns

end Effect
