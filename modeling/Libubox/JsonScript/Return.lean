import Libubox.JsonScript.Calls
import Libubox.Blob.Parse
import Mathlib.Data.List.Basic

/-!
# Return

A `return` leaves the file it stands in: every block of it that is open, and no
block of a file that includes it.  In the code it is a number that each handler
passes on, compares with -1 or drops.

The runs of files are numbered as they begin.  A computation makes marks for the
runs it is in the middle of, its own, and for those that begin in it.
-/

namespace Libubox.JsonScript

open Bytes Blob Blobmsg Effect

variable {σ α β : Type}

/-! ## The scope of a return -/

/-- The run of a file a mark belongs to. -/
def Event.run? : Event → Option Nat
  | enters run => some run
  | begins run _ _ => some run
  | ends run _ _ _ => some run
  | executes run _ => some run
  | returns run _ => some run
  | includes run _ => some run
  | _ => none

/-- A run of a file comes to an element of a block, or to a command. -/
def Event.isStep (run : Nat) : Event → Bool
  | begins i _ _ => i == run
  | executes i _ => i == run
  | _ => false

/-- A `return`, or the end of an element. -/
def Event.isExit : Event → Bool
  | ends _ _ _ _ => true
  | returns _ _ => true
  | _ => false

def Event.isBegin : Event → Bool
  | begins _ _ _ => true
  | _ => false

/-- The elements of a block. -/
def blockElements (block : Mem) : Option (List Mem) :=
  (blobmsgForEachStart block).bind fun (rem, pos) => visited rem pos rem

/-- In the block `next` is the element after `cur`. -/
def Follows (block cur next : Mem) : Prop :=
  ∃ front back, blockElements block = some (front ++ cur :: next :: back)

structure ReturnScope (t : List Event) : Prop where
  /-- After a `return` its run of the file comes to nothing more. -/
  leaves_file : ∀ pre run cmd post, t = pre ++ .returns run cmd :: post →
    ∀ e ∈ post, e.isStep run = false
  /-- Otherwise a block goes on with its next element at once: after an error, and
  after an element in which a file was included, whatever that file did. -/
  goes_on : ∀ pre run block cur ret post next, t = pre ++ .ends run block cur ret :: post →
    (-1 ≤ ret ∨ ∀ cmd, .returns run cmd ∉ pre) → Follows block cur next →
    post.head? = some (.begins run block next)

/-- Every element that a block comes to is finished. -/
def Closed (t : List Event) : Prop :=
  ∀ pre run block cur post, t = pre ++ .begins run block cur :: post →
    ∃ ret, .ends run block cur ret ∈ post

/-! ## Traces of computations -/

theorem append_split {t u pre post : List α} {e : α} (h : t ++ u = pre ++ e :: post) :
    (∃ mid, t = pre ++ e :: mid ∧ post = mid ++ u) ∨ ∃ mid, pre = t ++ mid ∧ u = mid ++ e :: post := by
  rcases List.append_eq_append_iff.mp h with ⟨mid, hpre, hu⟩ | ⟨mid, ht, hpost⟩
  · exact .inr ⟨mid, hpre, hu⟩
  · cases mid with
    | nil => exact .inr ⟨[], by simpa using ht.symm, by simpa using hpost.symm⟩
    | cons x mid =>
        rw [List.cons_append, List.cons.injEq] at hpost
        obtain ⟨rfl, rfl⟩ := hpost
        exact .inl ⟨mid, ht, rfl⟩

/-- One of its own runs has returned. -/
def Returned (own : Nat → Prop) (t : List Event) : Prop :=
  ∃ run cmd, own run ∧ .returns run cmd ∈ t

/-- The trace of a computation in the middle of the runs `own`, during which the
runs from `lo` to before `hi` begin. -/
structure Scope (own : Nat → Prop) (lo hi : Nat) (t : List Event) : Prop extends ReturnScope t where
  runs : ∀ e ∈ t, ∀ run, e.run? = some run → own run ∨ lo ≤ run ∧ run < hi

namespace Scope

variable {own : Nat → Prop} {lo mid hi : Nat} {t u : List Event}

theorem run?_of_isStep {e : Event} {run : Nat} (h : e.isStep run = true) : e.run? = some run := by
  cases e <;> simp_all [Event.isStep, Event.run?]

theorem append (h : Scope own lo mid t) (k : Scope own mid hi u) (hlo : lo ≤ mid) (hhi : mid ≤ hi)
    (hown : ∀ run, own run → run < lo) (hgo : ¬Returned own t) : Scope own lo hi (t ++ u) where
  leaves_file := by
    intro pre run cmd post heq e he
    rcases append_split heq with ⟨m, ht, rfl⟩ | ⟨m, -, hu⟩
    · rcases List.mem_append.mp he with he | he
      · exact h.leaves_file pre run cmd m ht e he
      · cases hstep : e.isStep run with
        | false => rfl
        | true =>
            have hmem : Event.returns run cmd ∈ t := by simp [ht]
            have hrun := h.runs _ hmem run rfl
            have hlater := k.runs e he run (run?_of_isStep hstep)
            rcases hrun with hrun | hrun
            · exact absurd ⟨run, cmd, hrun, hmem⟩ hgo
            · rcases hlater with hlater | hlater
              · have := hown run hlater
                omega
              · omega
    · exact k.leaves_file m run cmd post hu e he
  goes_on := by
    intro pre run block cur ret post next heq hret hnext
    rcases append_split heq with ⟨m, ht, rfl⟩ | ⟨m, rfl, hu⟩
    · have := h.goes_on pre run block cur ret m next ht hret hnext
      rw [List.head?_append, this, Option.some_or]
    · refine k.goes_on m run block cur ret post next hu ?_ hnext
      exact hret.imp_right fun hnone cmd hmem => hnone cmd (List.mem_append_right _ hmem)
  runs := by
    intro e he run hrun
    rcases List.mem_append.mp he with he | he
    · exact (h.runs e he run hrun).imp_right fun hb => ⟨hb.1, by omega⟩
    · exact (k.runs e he run hrun).imp_right fun hb => ⟨by omega, hb.2⟩

/-- Events that are no marks. -/
theorem of_unmarked (h : ∀ e ∈ t, e.run? = none) : Scope own lo hi t where
  leaves_file := by
    intro pre run cmd post ht
    have := h (.returns run cmd) (by simp [ht])
    cases this
  goes_on := by
    intro pre run block cur ret post next ht
    have := h (.ends run block cur ret) (by simp [ht])
    cases this
  runs := by
    intro e he run hrun
    rw [h e he] at hrun
    cases hrun

/-- Neither a `return` nor the end of an element. -/
theorem cons {e : Event} (h : Scope own lo hi t) (he : e.isExit = false)
    (hrun : ∀ run, e.run? = some run → own run ∨ lo ≤ run ∧ run < hi) :
    Scope own lo hi (e :: t) where
  leaves_file := by
    intro pre run cmd post heq
    cases pre with
    | nil =>
        rw [List.nil_append, List.cons.injEq] at heq
        rw [heq.1] at he
        cases he
    | cons x pre =>
        rw [List.cons_append, List.cons.injEq] at heq
        exact h.leaves_file pre run cmd post heq.2
  goes_on := by
    intro pre run block cur ret post next heq hret hnext
    cases pre with
    | nil =>
        rw [List.nil_append, List.cons.injEq] at heq
        rw [heq.1] at he
        cases he
    | cons x pre =>
        rw [List.cons_append, List.cons.injEq] at heq
        refine h.goes_on pre run block cur ret post next heq.2 ?_ hnext
        exact hret.imp_right fun hnone cmd hmem => hnone cmd (List.mem_cons_of_mem _ hmem)
  runs := by
    intro e' he' run hrun'
    cases he' with
    | head => exact hrun run hrun'
    | tail _ he' => exact h.runs e' he' run hrun'

/-- The end of an element, with what the block goes on with. -/
theorem goOn {run : Nat} {block cur : Mem} {ret : Int} (h : Scope own lo hi t)
    (hrun : own run ∨ lo ≤ run ∧ run < hi)
    (hnext : ∀ next, Follows block cur next → t.head? = some (.begins run block next)) :
    Scope own lo hi (.ends run block cur ret :: t) where
  leaves_file := by
    intro pre run' cmd post heq
    cases pre with
    | nil => simp at heq
    | cons x pre =>
        rw [List.cons_append, List.cons.injEq] at heq
        exact h.leaves_file pre run' cmd post heq.2
  goes_on := by
    intro pre run' block' cur' ret' post next heq hret hfollows
    cases pre with
    | nil =>
        simp only [List.nil_append, List.cons.injEq, Event.ends.injEq] at heq
        obtain ⟨⟨rfl, rfl, rfl, rfl⟩, rfl⟩ := heq
        exact hnext next hfollows
    | cons x pre =>
        rw [List.cons_append, List.cons.injEq] at heq
        refine h.goes_on pre run' block' cur' ret' post next heq.2 ?_ hfollows
        exact hret.imp_right fun hnone cmd hmem => hnone cmd (List.mem_cons_of_mem _ hmem)
  runs := by
    intro e he run' hrun'
    cases he with
    | head => exact Option.some.inj hrun' ▸ hrun
    | tail _ he => exact h.runs e he run' hrun'

/-- The end of an element after a `return`. -/
theorem leave {run : Nat} {block cur cmd : Mem} {ret : Int} (h : Scope (· = run) lo hi t)
    (hret : ret < -1) (hmem : .returns run cmd ∈ t) :
    Scope (· = run) lo hi (t ++ [.ends run block cur ret]) where
  leaves_file := by
    intro pre run' cmd' post heq e he
    rcases append_split heq with ⟨m, ht, rfl⟩ | ⟨m, -, hu⟩
    · rcases List.mem_append.mp he with he | he
      · exact h.leaves_file pre run' cmd' m ht e he
      · obtain rfl := List.mem_singleton.mp he
        rfl
    · have := List.append_eq_singleton_iff.mp hu.symm
      simp at this
  goes_on := by
    intro pre run' block' cur' ret' post next heq hret' hfollows
    rcases append_split heq with ⟨m, ht, rfl⟩ | ⟨m, rfl, hu⟩
    · have := h.goes_on pre run' block' cur' ret' m next ht hret' hfollows
      rw [List.head?_append, this, Option.some_or]
    · cases m with
      | nil =>
          simp only [List.nil_append, List.cons.injEq, Event.ends.injEq] at hu
          obtain ⟨⟨rfl, -, -, rfl⟩, -⟩ := hu
          rcases hret' with hret' | hnone
          · omega
          · exact absurd (List.mem_append_left _ hmem) (hnone cmd)
      | cons x m => simp at hu
  runs := by
    intro e he run' hrun'
    rcases List.mem_append.mp he with he | he
    · exact h.runs e he run' hrun'
    · obtain rfl := List.mem_singleton.mp he
      exact .inl (Option.some.inj hrun').symm

theorem returns (run : Nat) (cmd : Mem) : Scope (· = run) lo hi [.returns run cmd] where
  leaves_file := by
    intro pre run' cmd' post heq
    cases pre with
    | nil =>
        rw [List.nil_append, List.cons.injEq] at heq
        rw [← heq.2]
        exact fun e he => absurd he List.not_mem_nil
    | cons x pre => simp at heq
  goes_on := by
    intro pre run' block cur ret post next heq
    cases pre with
    | nil => simp at heq
    | cons x pre => simp at heq
  runs := by
    intro e he run' hrun
    obtain rfl := List.mem_singleton.mp he
    exact .inl (Option.some.inj hrun).symm

/-- The run `lo` begins in the middle of others. -/
theorem nested (h : Scope (· = lo) (lo + 1) hi t) (hhi : lo + 1 ≤ hi) : Scope own lo hi t where
  leaves_file := h.leaves_file
  goes_on := h.goes_on
  runs := by
    intro e he run hrun
    right
    rcases h.runs e he run hrun with rfl | hb
    · exact ⟨Nat.le_refl run, hhi⟩
    · exact ⟨by omega, hb.2⟩

end Scope

theorem Closed.append {t u : List Event} (h : Closed t) (k : Closed u) : Closed (t ++ u) := by
  intro pre run block cur post heq
  rcases append_split heq with ⟨m, ht, rfl⟩ | ⟨m, -, hu⟩
  · obtain ⟨ret, hret⟩ := h pre run block cur m ht
    exact ⟨ret, List.mem_append_left _ hret⟩
  · exact k m run block cur post hu

/-- Not the beginning of an element. -/
theorem Closed.single {e : Event} (h : e.isBegin = false) : Closed [e] := by
  intro pre run block cur post heq
  cases pre with
  | nil =>
      rw [List.nil_append, List.cons.injEq] at heq
      rw [heq.1] at h
      cases h
  | cons x pre => simp at heq

theorem Closed.of_unmarked {t : List Event} (h : ∀ e ∈ t, e.run? = none) : Closed t := by
  intro pre run block cur post ht
  have := h (.begins run block cur) (by simp [ht])
  cases this

theorem returned_append {own : Nat → Prop} {t u : List Event} :
    Returned own (t ++ u) ↔ Returned own t ∨ Returned own u := by
  constructor
  · intro h
    obtain ⟨run, cmd, hown, hmem⟩ := h
    rcases List.mem_append.mp hmem with hmem | hmem
    · exact .inl ⟨run, cmd, hown, hmem⟩
    · exact .inr ⟨run, cmd, hown, hmem⟩
  · intro h
    rcases h with ⟨run, cmd, hown, hmem⟩ | ⟨run, cmd, hown, hmem⟩
    · exact ⟨run, cmd, hown, List.mem_append_left _ hmem⟩
    · exact ⟨run, cmd, hown, List.mem_append_right _ hmem⟩

theorem returned_cons {own : Nat → Prop} {e : Event} {t : List Event}
    (he : ∀ run cmd, .returns run cmd ≠ e) : Returned own (e :: t) ↔ Returned own t := by
  constructor
  · intro h
    obtain ⟨run, cmd, hown, hmem⟩ := h
    rcases List.mem_cons.mp hmem with hmem | hmem
    · exact absurd hmem (he run cmd)
    · exact ⟨run, cmd, hown, hmem⟩
  · intro h
    obtain ⟨run, cmd, hown, hmem⟩ := h
    exact ⟨run, cmd, hown, List.mem_cons_of_mem _ hmem⟩

theorem not_returned_of_unmarked {own : Nat → Prop} {t : List Event}
    (h : ∀ e ∈ t, e.run? = none) : ¬Returned own t := by
  intro hreturned
  obtain ⟨run, cmd, -, hmem⟩ := hreturned
  have := h _ hmem
  cases this

/-! ## What a computation does in the middle of its own runs -/

/-- While no callback aborts, the computation keeps to the scope of a return.  Its
value, as a number, is below -1 if and only if one of its own runs has returned. -/
def Scoped (own : Nat → Prop) (f : α → Int) (s : Ctx σ) (o : Option α) (s' : Ctx σ) : Prop :=
  s.runs ≤ s'.runs ∧ ∃ t, Shows s t s' ∧
    ((∀ run, own run → run < s.runs) → s.abort = false → (∀ e ∈ t, e.aborts = false) →
      Scope own s.runs s'.runs t ∧ ∀ a, o = some a → Closed t ∧ (f a < -1 ↔ Returned own t))

theorem Shows.not_abort {s s' : Ctx σ} {t : List Event} (h : Shows s t s') (hs : s.abort = false)
    (ht : ∀ e ∈ t, e.aborts = false) : s'.abort = false := by
  rw [h.abort, hs, Bool.false_or, List.any_eq_false]
  intro e he
  simp [ht e he]

namespace Scoped

variable {own : Nat → Prop} {f : α → Int} {g : β → Int} {s s₁ s₂ : Ctx σ}

/-- The second part only where the first one has not returned. -/
theorem append {a : α} {o : Option β} (h : Scoped own f s (some a) s₁) (ha : -1 ≤ f a)
    (k : Scoped own g s₁ o s₂) : Scoped own g s o s₂ := by
  obtain ⟨hle, t, ht, hscope⟩ := h
  obtain ⟨kle, u, hu, kscope⟩ := k
  refine ⟨Nat.le_trans hle kle, t ++ u, ht.append hu, fun hown hs hnone => ?_⟩
  have htnone : ∀ e ∈ t, e.aborts = false := fun e he => hnone e (List.mem_append_left _ he)
  obtain ⟨ht', hvalue⟩ := hscope hown hs htnone
  obtain ⟨hu', kvalue⟩ := kscope (fun run hrun => Nat.lt_of_lt_of_le (hown run hrun) hle)
    (ht.not_abort hs htnone) fun e he => hnone e (List.mem_append_right _ he)
  obtain ⟨hclosed, hleaves⟩ := hvalue a rfl
  have hgo : ¬Returned own t := by
    rw [← hleaves]
    omega
  refine ⟨ht'.append hu' hle kle hown hgo, fun b hb => ?_⟩
  obtain ⟨kclosed, kleaves⟩ := kvalue b hb
  refine ⟨hclosed.append kclosed, ?_⟩
  rw [returned_append, kleaves]
  exact (or_iff_right hgo).symm

theorem stopped {o : Option α} (h : Scoped own f s o s₁) : Scoped own g s none s₁ := by
  obtain ⟨hle, t, ht, hscope⟩ := h
  exact ⟨hle, t, ht, fun hown hs hnone => ⟨(hscope hown hs hnone).1, fun _ hb => nomatch hb⟩⟩

theorem value {a : α} {b : β} (h : Scoped own f s (some a) s₁) (hab : f a < -1 ↔ g b < -1) :
    Scoped own g s (some b) s₁ := by
  obtain ⟨hle, t, ht, hscope⟩ := h
  refine ⟨hle, t, ht, fun hown hs hnone => ⟨(hscope hown hs hnone).1, fun b' hb => ?_⟩⟩
  cases hb
  rw [← hab]
  exact (hscope hown hs hnone).2 a rfl

/-- A run of a file begins in the middle of the own ones; whether it returns is of
no account to them. -/
theorem entered {o : Option α} {o' : Option β}
    (h : Scoped (· = s.runs) f ({ s with runs := s.runs + 1 }.emit (.enters s.runs)) o s₁)
    (ho : o'.isSome → o.isSome) : Scoped own (fun _ => 0) s o' s₁ := by
  obtain ⟨hle, t, ht, hscope⟩ := h
  have hfirst : Shows s [.enters s.runs] ({ s with runs := s.runs + 1 }.emit (.enters s.runs)) :=
    ⟨rfl, by simp [Ctx.emit, Event.aborts]⟩
  have hruns : s.runs + 1 ≤ s₁.runs := hle
  refine ⟨Nat.le_of_succ_le hruns, _, hfirst.append ht, fun hown hs hnone => ?_⟩
  obtain ⟨ht', hvalue⟩ := hscope (fun run hrun => hrun ▸ Nat.lt_succ_self _) hs
    fun e he => hnone e (List.mem_append_right _ he)
  have hnested : Scope own s.runs s₁.runs t := ht'.nested hruns
  refine ⟨hnested.cons rfl fun run hrun => ?_, fun b hb => ?_⟩
  · cases hrun
    exact .inr ⟨Nat.le_refl _, hruns⟩
  · obtain ⟨a, ha⟩ := Option.isSome_iff_exists.mp (ho (by rw [hb]; rfl))
    refine ⟨(Closed.single rfl).append (hvalue a ha).1,
      fun (h : (0 : Int) < -1) => absurd h (by decide), fun h => ?_⟩
    obtain ⟨run, cmd, hrun, hmem⟩ := h
    rcases List.mem_append.mp hmem with hmem | hmem
    · cases List.mem_singleton.mp hmem
    · have hlt := hown run hrun
      rcases ht'.runs _ hmem run rfl with hb | hb
      · omega
      · have : s.runs + 1 ≤ run := hb.1
        omega

theorem of_emits {p : Event → Bool} (hp : ∀ e, p e = true → e.run? = none) {o : Option α}
    (h : Emits p s s₁) (ho : ∀ a, o = some a → -1 ≤ f a) : Scoped own f s o s₁ := by
  obtain ⟨hruns, t, ht, hall⟩ := h
  have hmarks : ∀ e ∈ t, e.run? = none := fun e he => hp e (hall e he)
  refine ⟨Nat.le_of_eq hruns.symm, t, ht, fun _ _ _ => ⟨Scope.of_unmarked hmarks, fun a ha => ?_⟩⟩
  refine ⟨Closed.of_unmarked hmarks, ?_⟩
  have := ho a ha
  exact ⟨fun h => by omega, fun h => absurd h (not_returned_of_unmarked hmarks)⟩

end Scoped

section Rules

variable {own : Nat → Prop} {f : α → Int} {g : β → Int} {m : Script σ α} {k : α → Script σ β}
  {p : Event → Bool}

theorem scoped_of_emits (hm : Moves (Emits p) m) (hp : ∀ e, p e = true → e.run? = none)
    (hf : ∀ a, -1 ≤ f a) : Leads (Scoped own f) m := fun s =>
  Scoped.of_emits hp (hm s) fun a _ => hf a

theorem scoped_need (o : Option α) (hf : ∀ a, -1 ≤ f a) :
    Leads (Scoped own f) (need o : Script σ α) := fun s =>
  Scoped.of_emits (p := fun _ => false) (fun _ h => nomatch h) (Std.Refl.refl s) fun a _ => hf a

theorem scoped_pure {a : α} (hf : -1 ≤ f a) : Leads (Scoped own f) (pure a : Script σ α) :=
  fun s => Scoped.of_emits (p := fun _ => false) (fun _ h => nomatch h) (Std.Refl.refl s)
    fun b hb => by cases hb; exact hf

theorem scoped_state {f : Ctx σ → Int} (hf : ∀ s, -1 ≤ f s) :
    Leads (Scoped own f) (state : Script σ (Ctx σ)) :=
  scoped_of_emits (p := fun _ => false) Moves.state (fun _ h => nomatch h) hf

theorem scoped_stop : Leads (Scoped own f) (stop : Script σ α) := fun s =>
  Scoped.of_emits (p := fun _ => false) (fun _ h => nomatch h) (Std.Refl.refl s)
    fun _ hb => nomatch hb

/-- Go on where the first part has not returned; where it has, do nothing more. -/
theorem scoped_bind (hm : Leads (Scoped own f) m)
    (hgo : ∀ a, -1 ≤ f a → Leads (Scoped own g) (k a))
    (hleave : ∀ a, f a < -1 → ∃ b, k a = pure b ∧ g b < -1) :
    Leads (Scoped own g) (m >>= k) := by
  refine Leads.bind hm (fun s s' h => h.stopped) fun s a s' h => ?_
  by_cases ha : -1 ≤ f a
  · exact h.append ha (hgo a ha s')
  · obtain ⟨b, hk, hb⟩ := hleave a (by omega)
    rw [hk]
    exact h.value (by omega)

/-- A first part that cannot return. -/
theorem scoped_then (hm : Leads (Scoped own fun _ => 0) m)
    (hk : ∀ a, Leads (Scoped own g) (k a)) : Leads (Scoped own g) (m >>= k) :=
  scoped_bind hm (fun a _ => hk a) fun _ (h : (0 : Int) < -1) => absurd h (by decide)

theorem scoped_map {h : α → β} (hm : Leads (Scoped own f) m) (hfg : ∀ a, f a < -1 ↔ g (h a) < -1) :
    Leads (Scoped own g) (h <$> m) := by
  rw [← bind_pure_comp]
  exact Leads.bind hm (fun s s' hs => hs.stopped) fun s a s' hs => hs.value (hfg a)

theorem scoped_ite {c : Prop} [Decidable c] {n : Script σ α} (hm : Leads (Scoped own f) m)
    (hn : Leads (Scoped own f) n) : Leads (Scoped own f) (if c then m else n) := by
  split
  · exact hm
  · exact hn

/-- A change that no event shows. -/
theorem scoped_change {h : Ctx σ → Ctx σ} (hruns : ∀ s, (h s).runs = s.runs)
    (htrace : ∀ s, (h s).trace = s.trace) (habort : ∀ s, (h s).abort = s.abort) :
    Leads (Scoped own fun _ => 0) (change h) := fun s =>
  Scoped.of_emits (p := fun _ => false) (fun _ h => nomatch h)
    (Emits.none (hruns s) (htrace s) (habort s)) fun _ _ => by decide

/-- A mark of an own run. -/
theorem scoped_emit {e : Event} (he : e.isExit = false) (haborts : e.aborts = false)
    (hbegin : e.isBegin = false) (hrun : ∀ run, e.run? = some run → own run) :
    Leads (Scoped own fun _ => 0) (emit e : Script σ Unit) := by
  intro s
  refine ⟨Nat.le_refl _, [e], ⟨rfl, by simp [haborts, emit, Ctx.emit]⟩, fun _ _ _ => ⟨?_, ?_⟩⟩
  · exact (Scope.of_unmarked (by simp)).cons he fun run h => .inl (hrun run h)
  · intro a ha
    refine ⟨Closed.single hbegin, fun (h : (0 : Int) < -1) => absurd h (by decide), fun h => ?_⟩
    obtain ⟨run, cmd, -, hmem⟩ := h
    obtain rfl := List.mem_singleton.mp hmem
    cases he

/-- A loop that its body leaves when it returns. -/
theorem scoped_forEach {body : Nat → Mem → Script σ (Option Int)}
    (hbody : ∀ i cur, Leads (Scoped own (·.getD 0)) (body i cur)) (fuel i : Nat) (pos : Mem)
    (rem : Nat) : Leads (Scoped own (·.getD 0)) (forEach body fuel i pos rem) := by
  induction fuel generalizing i pos rem with
  | zero => exact scoped_pure (by decide)
  | succ fuel ih =>
      rw [forEach]
      refine scoped_ite (scoped_pure (by decide)) ?_
      refine scoped_then (scoped_need _ fun _ => by decide) fun pad => ?_
      refine scoped_ite ?_ (scoped_pure (by decide))
      refine scoped_bind (hbody i pos) (fun left hleft => ?_) fun left hleft => ?_
      · cases left with
        | none => exact ih _ _ _
        | some ret => exact scoped_pure hleft
      · cases left with
        | none => exact absurd hleft (by decide)
        | some ret => exact ⟨some ret, rfl, hleft⟩

end Rules

/-! ## Commands -/

theorem run?_of_isQuery {expanding : Bool} (e : Event) (h : e.isQuery expanding = true) :
    e.run? = none := by
  cases e <;> simp_all [Event.isQuery, Event.isLookup, Event.run?]

theorem run?_of_isLookup {expanding : Bool} (e : Event) (h : e.isLookup expanding = true) :
    e.run? = none :=
  run?_of_isQuery e (Event.isQuery_of_isLookup h)

theorem run?_of_isFile (e : Event) (h : e.isFile = true) : e.run? = none := by
  cases e <;> simp_all [Event.isFile, Event.run?]

theorem run?_of_isCommand (e : Event) (h : e.isCommand = true) : e.run? = none := by
  cases e <;> simp_all [Event.isCommand, Event.run?]

variable {c : Call σ} {process : Call σ → Mem → Script σ Int}

theorem scoped_error {own : Nat → Prop} {f : α → Int} (msg : String) (cur : Mem) {a : α}
    (ha : -1 ≤ f a) : Leads (Scoped own f) (do handleError c msg cur; pure a) :=
  scoped_then (scoped_of_emits (handleError_emits c false msg cur) run?_of_isQuery
    fun _ => by decide) fun _ => scoped_pure ha

theorem handleReturn_scoped (expr : Mem) :
    Leads (Scoped (· = c.run) id) (handleReturn c expr) := by
  intro s
  have hshows : Shows s [.returns c.run expr] (s.emit (.returns c.run expr)) :=
    ⟨rfl, by simp [Ctx.emit, Event.aborts]⟩
  refine ⟨Nat.le_refl _, _, hshows, fun _ _ _ => ⟨Scope.returns _ _, fun a ha => ?_⟩⟩
  cases ha
  refine ⟨Closed.single rfl, fun _ => ⟨c.run, expr, rfl, List.mem_singleton.mpr rfl⟩, fun _ => ?_⟩
  decide

theorem runFiles_cons (data : Mem) (next : List Mem) (s : Ctx σ) :
    runFiles c process (data :: next) s =
      (process { c with run := s.runs } data >>= fun _ => runFiles c process next)
        ({ s with runs := s.runs + 1 }.emit (.enters s.runs)) := rfl

section Handlers

variable (hprocess : ∀ c cur, Leads (Scoped (· = c.run) id) (process c cur))

include hprocess

theorem handleIf_scoped (fuel : Nat) (expr : Mem) :
    Leads (Scoped (· = c.run) id) (handleIf c fuel (process c) expr) := by
  unfold handleIf
  refine scoped_then (scoped_need _ fun _ => by decide) fun tb => ?_
  split
  · refine scoped_then (scoped_of_emits (jsonProcessExpr_queries c fuel _) run?_of_isQuery
      fun _ => by decide) fun ret => scoped_ite (scoped_pure (by decide)) ?_
    refine scoped_ite (hprocess c _) ?_
    split
    · exact scoped_pure (by decide)
    · exact hprocess c _
  · exact scoped_pure (by decide)

theorem handleCase_scoped (expr : Mem) :
    Leads (Scoped (· = c.run) id) (handleCase c (process c) expr) := by
  unfold handleCase
  refine scoped_then (scoped_need _ fun _ => by decide) fun tb => ?_
  split
  · refine scoped_then (scoped_need _ fun _ => by decide) fun name => ?_
    refine scoped_then (scoped_of_emits (findVar_queries c name) run?_of_isQuery
      fun _ => by decide) fun var => ?_
    cases var with
    | none => exact scoped_pure (by decide)
    | some var =>
        refine scoped_bind (f := (·.getD 0)) ?_ (fun left hleft => scoped_pure hleft)
          fun left hleft => ⟨_, rfl, hleft⟩
        refine scoped_then (scoped_need _ fun _ => by decide) fun start =>
          scoped_forEach (fun i cur => ?_) _ _ _ _
        refine scoped_then (scoped_need _ fun _ => by decide) fun eq => ?_
        refine scoped_ite ?_ (scoped_pure (by decide))
        exact scoped_map (hprocess c cur) fun ret => Iff.rfl
  · exact scoped_pure (by decide)

/-- The runs of the files begin in the middle of the own ones. -/
theorem runFiles_scoped (own : Nat → Prop) (files : List Mem) :
    Leads (Scoped own fun _ => 0) (runFiles c process files) := by
  induction files with
  | nil => exact scoped_pure (by decide)
  | cons data next ih =>
      intro s
      have hrun := hprocess { c with run := s.runs } data
        ({ s with runs := s.runs + 1 }.emit (.enters s.runs))
      rw [runFiles_cons]
      rcases h : process { c with run := s.runs } data
        ({ s with runs := s.runs + 1 }.emit (.enters s.runs)) with ⟨_ | ret, s₁⟩
      · rw [h] at hrun
        rw [bind_none h]
        exact Scoped.entered hrun id
      · rw [h] at hrun
        rw [bind_some h]
        have hone : Scoped own (fun _ : Unit => 0) s (some ()) s₁ :=
          Scoped.entered hrun fun _ => rfl
        exact hone.append (by decide) (ih s₁)

theorem jsonScriptRunAt_scoped (own : Nat → Prop) (file : Nat) (context : Option Mem) :
    Leads (Scoped own fun _ => 0) (jsonScriptRunAt c process file context) := by
  unfold jsonScriptRunAt
  refine scoped_then (m := state) (scoped_state fun _ => by decide) fun s => ?_
  refine scoped_then (scoped_need _ fun _ => by decide) fun f => scoped_ite ?_ ?_
  · cases context with
    | none => exact scoped_pure (by decide)
    | some context =>
        exact scoped_of_emits (handleError_emits c false _ context) run?_of_isQuery
          fun _ => by decide
  · refine scoped_then (scoped_change (fun _ => rfl) (fun _ => rfl) fun _ => rfl) fun _ => ?_
    exact runFiles_scoped hprocess own _

theorem handleInclude_scoped (expr : Mem) :
    Leads (Scoped (· = c.run) id) (handleInclude c process expr) := by
  unfold handleInclude
  refine scoped_then (scoped_emit rfl rfl rfl fun run h => (Option.some.inj h).symm) fun _ => ?_
  refine scoped_then (scoped_need _ fun _ => by decide) fun tb => ?_
  split
  · exact scoped_pure (by decide)
  · refine scoped_then (scoped_need _ fun _ => by decide) fun filename => ?_
    refine scoped_then (scoped_of_emits (jsonScriptGetFile_emits c filename) run?_of_isFile
      fun _ => by decide) fun f => ?_
    cases f with
    | none => exact scoped_pure (by decide)
    | some f => exact scoped_then (jsonScriptRunAt_scoped hprocess _ f _) fun _ => scoped_pure (by decide)

theorem jsonProcessCommand_scoped (fuel : Nat) (cur : Mem) :
    Leads (Scoped (· = c.run) id) (jsonProcessCommand c fuel process cur) := by
  intro s
  have hmark : Scoped (· = c.run) (fun _ : Unit => 0) s (some ()) (s.emit (.executes c.run cur)) :=
    scoped_emit (e := .executes c.run cur) rfl rfl rfl (fun run h => (Option.some.inj h).symm) s
  refine jsonProcessCommand_cases (Q := fun r => Scoped (· = c.run) id s r.1 r.2) ?_ ?_
    hmark.stopped (fun entry hentry => hmark.append (by decide) ?_)
    fun name => hmark.append (by decide) ?_
  · exact scoped_stop s
  · exact scoped_error _ cur (by decide) s
  · simp only [cmdTable, List.mem_cons, List.not_mem_nil, or_false] at hentry
    rcases hentry with rfl | rfl | rfl | rfl
    · exact handleIf_scoped hprocess fuel cur _
    · exact handleCase_scoped hprocess cur _
    · exact handleReturn_scoped cur _
    · exact handleInclude_scoped hprocess cur _
  · generalize s.emit (.executes c.run cur) = s'
    have hstrings : Leads (Scoped (· = c.run) id) (cmdProcessStrings c cur) := fun s =>
      Scoped.of_emits run?_of_isQuery (cmdProcessStrings_expands c cur s).1 fun ret hret => by
        have := cmdProcessStrings_yields c cur s ret hret
        change -1 ≤ ret
        omega
    refine scoped_bind hstrings (fun ret hret => scoped_ite (scoped_pure hret) ?_)
      (fun ret hret => ⟨ret, if_pos ?_, hret⟩) s'
    · refine scoped_then (m := state) (scoped_state fun _ => by decide) fun s => ?_
      exact scoped_then (scoped_of_emits (handleCommand_emits c name _) run?_of_isCommand
        fun _ => by decide) fun _ => scoped_pure (by decide)
    · change ret < -1 at hret
      omega

end Handlers

/-! ## Blocks -/

theorem idLen_of_blobPadLen {attr : Mem} {pad : Nat} (h : blobPadLen attr = some pad) :
    ∃ w, idLen attr = some w := by
  obtain ⟨rawLen, h, -⟩ := Option.map_eq_some_iff.mp h
  obtain ⟨len, h, -⟩ := Option.map_eq_some_iff.mp h
  obtain ⟨w, h, -⟩ := Option.map_eq_some_iff.mp h
  exact ⟨w, h⟩

theorem visited_length {fuel : Nat} {pos : Mem} {rem : Nat} {attrs : List Mem}
    (h : visited fuel pos rem = some attrs) : ∀ attr ∈ attrs, attr.length ≤ pos.length :=
  fun attr hattr => (visited_suffix h attr hattr).length_le

/-- The loop never comes to a place twice. -/
theorem visited_nodup {fuel : Nat} {pos : Mem} {rem : Nat} {attrs : List Mem}
    (h : visited fuel pos rem = some attrs) : attrs.Nodup := by
  induction fuel generalizing pos rem attrs with
  | zero =>
      cases h
      exact List.nodup_nil
  | succ fuel ih =>
      rw [visited] at h
      split at h
      · cases h
        exact List.nodup_nil
      obtain ⟨pad, hpad, h⟩ := Option.bind_eq_some_iff.mp h
      split at h
      · next hfits =>
          obtain ⟨tail, htail, rfl⟩ := Option.map_eq_some_iff.mp h
          refine List.nodup_cons.mpr ⟨fun hmem => ?_, ih htail⟩
          have hle := visited_length htail pos hmem
          obtain ⟨w, hw⟩ := idLen_of_blobPadLen hpad
          have hpos := length_of_idLen hw
          rw [List.length_drop] at hle
          omega
      · cases h
        exact List.nodup_nil

section Element

variable {f : α → Int} {run : Nat} {block cur : Mem} {ret : Int} {s s₁ s₂ : Ctx σ}

theorem shows_emit (s : Ctx σ) {e : Event} (he : e.aborts = false) : Shows s [e] (s.emit e) :=
  ⟨rfl, by simp [Ctx.emit, he]⟩

theorem Closed.element {t u : List Event} (ht : Closed t) (hu : Closed u) :
    Closed (.begins run block cur :: (t ++ .ends run block cur ret :: u)) := by
  intro pre run' block' cur' post heq
  cases pre with
  | nil =>
      simp only [List.nil_append, List.cons.injEq, Event.begins.injEq] at heq
      obtain ⟨⟨rfl, rfl, rfl⟩, rfl⟩ := heq
      exact ⟨ret, by simp⟩
  | cons x pre =>
      rw [List.cons_append, List.cons.injEq] at heq
      exact (ht.append ((Closed.single (e := .ends run block cur ret) rfl).append hu)) pre run'
        block' cur' post heq.2

/-- An element, and the loop for the rest of the block, which begins with the next one. -/
theorem Scoped.element {o : Option α}
    (h : Scoped (· = run) id (s.emit (.begins run block cur)) (some ret) s₁) (hret : -1 ≤ ret)
    (k : Scoped (· = run) f (s₁.emit (.ends run block cur ret)) o s₂)
    (hnext : ∀ next, Follows block cur next → s₁.abort = false →
      ∃ u, s₂.trace = (s₁.emit (.ends run block cur ret)).trace ++ .begins run block next :: u) :
    Scoped (· = run) f s o s₂ := by
  obtain ⟨hle, t, ht, hscope⟩ := h
  obtain ⟨kle, u, hu, kscope⟩ := k
  have hmark : Shows s [.begins run block cur] (s.emit (.begins run block cur)) := shows_emit s rfl
  have hend : Shows s₁ [.ends run block cur ret] (s₁.emit (.ends run block cur ret)) :=
    shows_emit s₁ rfl
  have hruns : s.runs ≤ s₁.runs := hle
  have kruns : s₁.runs ≤ s₂.runs := kle
  refine ⟨Nat.le_trans hruns kruns, _, hmark.append (ht.append (hend.append hu)),
    fun hown hs hnone => ?_⟩
  have htnone : ∀ e ∈ t, e.aborts = false := fun e he => hnone e (by simp [he])
  obtain ⟨ht', hvalue⟩ := hscope hown hs htnone
  have hclear : s₁.abort = false := ht.not_abort hs htnone
  obtain ⟨hu', kvalue⟩ := kscope (fun r hr => Nat.lt_of_lt_of_le (hown r hr) hruns) hclear
    fun e he => hnone e (by simp [he])
  obtain ⟨hclosed, hleaves⟩ := hvalue ret rfl
  have hgo : ¬Returned (· = run) t := by
    rw [← hleaves]
    change ¬ret < -1
    omega
  have hrest : Scope (· = run) s₁.runs s₂.runs (.ends run block cur ret :: u) := by
    refine hu'.goOn (.inl rfl) fun next hfollows => ?_
    obtain ⟨v, hv⟩ := hnext next hfollows hclear
    rw [List.append_cancel_left (hu.trace.symm.trans hv)]
    rfl
  refine ⟨(ht'.append hrest hruns kruns hown hgo).cons rfl fun r hr => .inl
    (Option.some.inj hr).symm, fun a ha => ?_⟩
  obtain ⟨kclosed, kleaves⟩ := kvalue a ha
  refine ⟨Closed.element hclosed kclosed, ?_⟩
  rw [kleaves, List.singleton_append, returned_cons (by simp), returned_append,
    List.singleton_append, returned_cons (by simp)]
  exact (or_iff_right hgo).symm

/-- An element in which its file returns is the last one. -/
theorem Scoped.element_left
    (h : Scoped (· = run) id (s.emit (.begins run block cur)) (some ret) s₁) (hret : ret < -1) :
    Scoped (· = run) (·.getD 0) s (some (some ret)) (s₁.emit (.ends run block cur ret)) := by
  obtain ⟨hle, t, ht, hscope⟩ := h
  have hmark : Shows s [.begins run block cur] (s.emit (.begins run block cur)) := shows_emit s rfl
  have hend : Shows s₁ [.ends run block cur ret] (s₁.emit (.ends run block cur ret)) :=
    shows_emit s₁ rfl
  refine ⟨hle, _, hmark.append (ht.append hend), fun hown hs hnone => ?_⟩
  obtain ⟨ht', hvalue⟩ := hscope hown hs fun e he => hnone e (by simp [he])
  obtain ⟨hclosed, hleaves⟩ := hvalue ret rfl
  have hreturned : Returned (· = run) t := hleaves.mp hret
  obtain ⟨_, cmd, rfl, hmem⟩ := hreturned
  refine ⟨(ht'.leave hret hmem).cons rfl fun r hr => .inl (Option.some.inj hr).symm, fun a ha => ?_⟩
  cases ha
  refine ⟨Closed.element hclosed (Closed.of_unmarked fun e he => absurd he List.not_mem_nil),
    fun _ => ⟨_, cmd, rfl, ?_⟩, fun _ => hret⟩
  simp [hmem]

theorem Scoped.element_stopped {g : β → Int} {o : Option α}
    (h : Scoped (· = run) f (s.emit (.begins run block cur)) o s₁) :
    Scoped (· = run) g s none s₁ := by
  obtain ⟨hle, t, ht, hscope⟩ := h
  have hmark : Shows s [.begins run block cur] (s.emit (.begins run block cur)) := shows_emit s rfl
  refine ⟨hle, _, hmark.append ht, fun hown hs hnone => ⟨?_, fun _ h => nomatch h⟩⟩
  obtain ⟨ht', -⟩ := hscope hown hs fun e he => hnone e (by simp [he])
  exact ht'.cons rfl fun r hr => .inl (Option.some.inj hr).symm

end Element

/-- The trace only grows. -/
def Grows (s s' : Ctx σ) : Prop := ∃ t, s'.trace = s.trace ++ t

instance : Std.Refl (Grows : Ctx σ → Ctx σ → Prop) where
  refl _ := ⟨[], (List.append_nil _).symm⟩

instance : IsTrans (Ctx σ) Grows where
  trans s s₁ s₂ h k := by
    obtain ⟨t, ht⟩ := h
    obtain ⟨u, hu⟩ := k
    exact ⟨t ++ u, by rw [hu, ht, List.append_assoc]⟩

theorem grows_of_scoped {own : Nat → Prop} {f : α → Int} {m : Script σ α}
    (hm : Leads (Scoped own f) m) : Moves Grows m := by
  intro s
  obtain ⟨-, t, ht, -⟩ := hm s
  exact ⟨t, ht.trace⟩

theorem emit_grows (e : Event) : Moves Grows (emit e : Script σ Unit) := fun _ => ⟨[e], rfl⟩

section Blocks

variable (fuel : Nat) (block : Mem)

theorem blockBody_element {i : Nat} {cur : Mem} {type : Nat} {s : Ctx σ} (hs : s.abort = false)
    (hid : blobId cur = some type) (hcommand : ¬(type = blobmsgTypeString ∧ i = 0)) :
    blockBody c fuel process block i cur s = (process c cur >>= fun ret =>
      emit (.ends c.run block cur ret) >>= fun _ => pure (if ret < -1 then some ret else none))
        (s.emit (.begins c.run block cur)) := by
  unfold blockBody
  rw [state_bind, if_neg (by simp [hs]), hid, need_some_bind, if_neg hcommand]
  rfl

theorem blobId_of_blobPadLen {attr : Mem} {pad : Nat} (h : blobPadLen attr = some pad) :
    ∃ type, blobId attr = some type := by
  obtain ⟨w, hw⟩ := idLen_of_blobPadLen h
  exact ⟨_, by rw [blobId, hw, Option.map_some]⟩

/-- The next element of the block is the next one of the loop. -/
theorem next_of_follows {front : List Mem} {cur next : Mem} {rest : Option (List Mem)}
    (hrest : blockElements block = rest.map ((front ++ [cur]) ++ ·))
    (hfollows : Follows block cur next) : ∃ back, rest = some (next :: back) := by
  obtain ⟨front', back, hall⟩ := hfollows
  rw [hall] at hrest
  obtain ⟨attrs, rfl, heq⟩ := Option.map_eq_some_iff.mp hrest.symm
  obtain ⟨start, -, hvisited⟩ := Option.bind_eq_some_iff.mp hall
  have hnodup := visited_nodup hvisited
  rw [List.nodup_append] at hnodup
  have hback : cur ∉ next :: back := (List.nodup_cons.mp hnodup.2.1).1
  have hfront : cur ∉ front' := fun hmem => hnodup.2.2 cur hmem cur List.mem_cons_self rfl
  rw [List.append_assoc, List.singleton_append] at heq
  have := (List.append_cons_inj_of_notMem hfront hback).mp heq.symm
  exact ⟨back, by rw [this.2.2]⟩

variable (hprocess : ∀ c cur, Leads (Scoped (· = c.run) id) (process c cur))

include hprocess

theorem blockBody_grows (i : Nat) (cur : Mem) :
    Moves Grows (blockBody c fuel process block i cur) := by
  unfold blockBody
  refine Moves.bind Moves.state fun _ => Moves.ite (Moves.pure _) ?_
  refine (Moves.need _).bind fun type => Moves.ite ?_ ?_
  · exact (grows_of_scoped (jsonProcessCommand_scoped hprocess fuel block)).map some
  · refine Moves.bind (emit_grows _) fun _ => ?_
    refine (grows_of_scoped (hprocess c cur)).bind fun ret => ?_
    exact Moves.bind (emit_grows _) fun _ => Moves.pure _

/-- After the first element of a block the loop comes to each one at once. -/
theorem blockLoop_begins {i : Nat} (hi : i ≠ 0) {loops : Nat} {pos : Mem} {rem : Nat} {next : Mem}
    {attrs : List Mem} (hvisited : visited loops pos rem = some (next :: attrs)) {s : Ctx σ}
    (hs : s.abort = false) :
    ∃ u, (forEach (blockBody c fuel process block) loops i pos rem s).2.trace =
      s.trace ++ .begins c.run block next :: u := by
  cases loops with
  | zero => simp [visited] at hvisited
  | succ loops =>
      rw [visited] at hvisited
      split at hvisited
      · simp at hvisited
      next hrem =>
      obtain ⟨pad, hpad, hvisited⟩ := Option.bind_eq_some_iff.mp hvisited
      split at hvisited
      · next hfits =>
          obtain ⟨tail, -, htail⟩ := Option.map_eq_some_iff.mp hvisited
          obtain ⟨rfl, rfl⟩ := List.cons.inj htail
          obtain ⟨type, hid⟩ := blobId_of_blobPadLen hpad
          have hbody := @blockBody_element _ c process fuel block i _ _ _ hs hid fun h => hi h.2
          have hgrows : Moves Grows ((process c pos >>= fun ret =>
              emit (.ends c.run block pos ret) >>= fun _ =>
                pure (if ret < -1 then some ret else none)) >>=
              carryOn (forEach (blockBody c fuel process block) loops (i + 1) (pos.drop pad)
                (rem - pad))) := by
            refine Moves.bind ?_ fun left => ?_
            · refine (grows_of_scoped (hprocess c pos)).bind fun ret => ?_
              exact Moves.bind (emit_grows _) fun _ => Moves.pure _
            · cases left with
              | none => exact forEach_moves (blockBody_grows fuel block hprocess) _ _ _ _
              | some a => exact Moves.pure _
          obtain ⟨u, hu⟩ := hgrows (s.emit (.begins c.run block pos))
          refine ⟨u, ?_⟩
          rw [forEach_turn hrem hpad hfits, bind_apply, hbody, ← bind_apply, hu]
          simp [Ctx.emit]
      · simp at hvisited

theorem blockTurn_scoped {i loops rem pad : Nat} {pos : Mem} (hpad : blobPadLen pos = some pad)
    {front : List Mem} (hrest : blockElements block =
      (visited loops (pos.drop pad) (rem - pad)).map ((front ++ [pos]) ++ ·))
    (hloop : Leads (Scoped (· = c.run) (·.getD 0))
      (forEach (blockBody c fuel process block) loops (i + 1) (pos.drop pad) (rem - pad))) :
    Leads (Scoped (· = c.run) (·.getD 0)) (blockBody c fuel process block i pos >>=
      carryOn (forEach (blockBody c fuel process block) loops (i + 1) (pos.drop pad)
        (rem - pad))) := by
  intro s
  by_cases hs : s.abort = true
  · have hbody : blockBody c fuel process block i pos s = (some (some 0), s) := by
      unfold blockBody
      rw [state_bind, if_pos hs]
      rfl
    rw [bind_some hbody]
    exact scoped_pure (by decide) s
  obtain ⟨type, hid⟩ := blobId_of_blobPadLen hpad
  by_cases hcommand : type = blobmsgTypeString ∧ i = 0
  · have hbody : blockBody c fuel process block i pos s =
        (some <$> jsonProcessCommand c fuel process block) s := by
      unfold blockBody
      rw [state_bind, if_neg hs, hid, need_some_bind, if_pos hcommand]
    have hone := jsonProcessCommand_scoped (c := c) hprocess fuel block s
    rw [← bind_pure_comp, bind_apply] at hbody
    rcases h : jsonProcessCommand c fuel process block s with ⟨_ | ret, s₁⟩
    · rw [h] at hone hbody
      rw [bind_none hbody]
      exact hone.stopped
    · rw [h] at hone hbody
      rw [bind_some hbody]
      exact hone.value Iff.rfl
  · have hbody := @blockBody_element _ c process fuel block _ _ _ _ (by simpa using hs) hid
      hcommand
    have hone := hprocess c pos (s.emit (.begins c.run block pos))
    rcases h : process c pos (s.emit (.begins c.run block pos)) with ⟨_ | ret, s₁⟩
    · rw [h] at hone
      rw [bind_none h] at hbody
      rw [bind_none hbody]
      exact hone.element_stopped
    · rw [h] at hone
      rw [bind_some h, emit, change_bind] at hbody
      rw [bind_some hbody]
      by_cases hret : ret < -1
      · rw [if_pos hret]
        exact hone.element_left hret
      · rw [if_neg hret]
        refine hone.element (by omega) (hloop _) fun next hfollows hclear => ?_
        obtain ⟨back, hback⟩ := next_of_follows block hrest hfollows
        exact blockLoop_begins fuel block hprocess (Nat.succ_ne_zero i) hback hclear

theorem blockLoop_scoped (loops i : Nat) (pos : Mem) (rem : Nat) (front : List Mem)
    (hfront : blockElements block = (visited loops pos rem).map (front ++ ·)) :
    Leads (Scoped (· = c.run) (·.getD 0))
      (forEach (blockBody c fuel process block) loops i pos rem) := by
  induction loops generalizing i pos rem front with
  | zero => exact scoped_pure (by decide)
  | succ loops ih =>
      by_cases hrem : rem = 0
      · rw [forEach, if_pos hrem]
        exact scoped_pure (by decide)
      cases hpad : blobPadLen pos with
      | none =>
          rw [forEach, if_neg hrem, hpad]
          exact scoped_stop
      | some pad =>
          by_cases hfits : pad ≤ rem ∧ 4 ≤ pad
          · rw [forEach_turn hrem hpad hfits]
            have hrest : blockElements block =
                (visited loops (pos.drop pad) (rem - pad)).map ((front ++ [pos]) ++ ·) := by
              rw [hfront, visited, if_neg hrem, hpad, Option.bind_some, if_pos hfits]
              cases visited loops (pos.drop pad) (rem - pad) with
              | none => rfl
              | some attrs => simp
            exact blockTurn_scoped fuel block hprocess hpad hrest (ih _ _ _ _ hrest)
          · rw [forEach, if_neg hrem, hpad, need_some_bind, if_neg hfits]
            exact scoped_pure (by decide)

end Blocks

theorem jsonProcessCmd_scoped (fuel : Nat) (c : Call σ) (block : Mem) :
    Leads (Scoped (· = c.run) id) (jsonProcessCmd fuel c block) := by
  induction fuel generalizing c block with
  | zero => exact scoped_stop
  | succ fuel ih =>
      rw [jsonProcessCmd]
      refine scoped_then (scoped_need _ fun _ => by decide) fun type => scoped_ite ?_ ?_
      · exact scoped_error _ block (by decide)
      · refine scoped_bind (f := (·.getD 0)) ?_ (fun left hleft => scoped_pure hleft)
          fun left hleft => ⟨_, rfl, hleft⟩
        unfold forEachIn
        cases hstart : blobmsgForEachStart block with
        | none => exact scoped_stop
        | some start =>
            refine blockLoop_scoped fuel block ih _ _ _ _ [] ?_
            rw [blockElements, hstart, Option.bind_some]
            simp

/-! ## Runs -/

variable {fuel seq : Nat} {handlers : Handlers σ} {regex : Mem → Option (Mem → Bool)}
  {vars : Option Mem} {s : Ctx σ} {t : List Event}

theorem jsonScriptRunFile_scope (file : Nat) (s : Ctx σ) :
    ∃ t, (jsonScriptRunFile fuel handlers regex vars seq file s).2.trace = s.trace ++ t ∧
      s.runs ≤ (jsonScriptRunFile fuel handlers regex vars seq file s).2.runs ∧
      ((∀ e ∈ t, e.aborts = false) →
        Scope (fun _ => False) s.runs (jsonScriptRunFile fuel handlers regex vars seq file s).2.runs
          t ∧
        ((jsonScriptRunFile fuel handlers regex vars seq file s).1 = some () → Closed t)) := by
  obtain ⟨hruns, t, ht, hscope⟩ := jsonScriptRunAt_scoped (c := ⟨handlers, regex, vars, seq, 0⟩)
    (jsonProcessCmd_scoped fuel) (fun _ => False) file none { s with abort := false }
  refine ⟨t, ht.trace, hruns, fun habort => ?_⟩
  obtain ⟨hreturn, hvalue⟩ := hscope (fun _ h => h.elim) rfl habort
  exact ⟨hreturn, fun hover => (hvalue () hover).1⟩

/-- Two files: `a` is `[["include", "b"], ["x"]]`, and `b` is `[["return"], ["y"]]`. -/
def twoFiles : Handlers Unit where
  handleCommand := fun _ _ _ u => (u, false)
  handleVar := fun _ _ u => (none, u, false)
  handleFile := fun name u =>
    (if name = [97] then
      some ⟨[97], [0x81, 0, 0, 64, 0, 0, 0, 0, 0x81, 0, 0, 36, 0, 0, 0, 0,
        0x83, 0, 0, 16, 0, 0, 0, 0, 105, 110, 99, 108, 117, 100, 101, 0,
        0x83, 0, 0, 10, 0, 0, 0, 0, 98, 0, 0, 0,
        0x81, 0, 0, 20, 0, 0, 0, 0, 0x83, 0, 0, 10, 0, 0, 0, 0, 120, 0, 0, 0], []⟩
    else
      some ⟨[98], [0x81, 0, 0, 52, 0, 0, 0, 0, 0x81, 0, 0, 24, 0, 0, 0, 0,
        0x83, 0, 0, 15, 0, 0, 0, 0, 114, 101, 116, 117, 114, 110, 0, 0,
        0x81, 0, 0, 20, 0, 0, 0, 0, 0x83, 0, 0, 10, 0, 0, 0, 0, 121, 0, 0, 0], []⟩, u, false)
  handleError := fun _ _ u => (u, false)

def twoFilesRun : Script Unit Unit :=
  (Start.byName [97]).run 9 twoFiles (fun _ => none) none 1

/-- The included file returns; the command after the include is the only one. -/
example :
    (twoFilesRun (initCtx () fun _ => some 0)).2.trace.filterMap (fun e =>
      match e with
      | .command name _ _ => some name
      | _ => none) = [[120]] := by
  decide +kernel

end Libubox.JsonScript
