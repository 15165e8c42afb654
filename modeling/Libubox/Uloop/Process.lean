import Mathlib.Data.List.Range
import Mathlib.Tactic.Common
import Libubox.Lib.Circle
import Libubox.Lib.Machine

/-!
# Child processes

`struct uloop_process`, the static list `processes` and the functions over it.
An entry is named by a number, and the list is the ring of pointers it is in
the source: a loop over it follows `next`, and an entry taken off it has null
pointers, so a loop that stands on such an entry faults (`none`).

`uloop_handle_processes` hands control to the application whenever it calls a
callback, and a callback may add and delete entries; so the loop is cut into
turns.  `Frame` is where it stands, with the pointers it keeps in `p` and `tmp`.
-/

namespace Libubox.Uloop.Process

open Circles

/-! ## The source -/

/-- The nodes of the ring: the variable `processes`, and the entries. -/
inductive Node where
  | head
  | entry (k : Nat)
  deriving DecidableEq

/-- `struct uloop_process` without its links. -/
structure UloopProcess where
  pending : Bool
  pid : Int

/-- Where `uloop_handle_processes` stands: not called, in front of `waitpid`, in
its loop over the list for the process it reaped, or in a callback of that loop. -/
inductive Frame where
  | idle
  | waiting
  | scanning (pid ret : Int) (p : Node) (tmp : Option Node)
  | calling (pid ret : Int) (tmp : Option Node)
  deriving DecidableEq

/-- The entries the application has, the links of the list, and the loop. -/
structure Processes where
  count : Nat
  process : Nat → UloopProcess
  links : Links Node
  frame : Frame

/-- `list_for_each_entry` of `uloop_process_add`: the node the new entry goes in
front of. -/
def Processes.place (s : Processes) (pid : Int) : Nat → Node → Option Node
  | 0, _ => none
  | _ + 1, .head => some .head
  | fuel + 1, .entry tmp =>
      if pid < (s.process tmp).pid then some (.entry tmp)
      else (s.links.next (.entry tmp)).bind (s.place pid fuel)

/-- `uloop_process_add`. -/
def uloopProcessAdd (s : Processes) (k : Nat) : Option (Processes × Int) :=
  if (s.process k).pending then some (s, -1)
  else do
    let first ← s.links.next .head
    let h ← s.place (s.process k).pid (s.count + 1) first
    let prev ← s.links.prev h
    some ({ s with
      links := s.links.add (.entry k) prev h
      process := Function.update s.process k { s.process k with pending := true } }, 0)

/-- `uloop_process_delete`. -/
def uloopProcessDelete (s : Processes) (k : Nat) : Option (Processes × Int) :=
  if (s.process k).pending then
    (s.links.del (.entry k)).map fun links =>
      ({ s with
        links
        process := Function.update s.process k { s.process k with pending := false } }, 0)
  else some (s, -1)

/-- What can happen next: the loop of `uloop_run` calls `uloop_handle_processes`,
`waitpid` answers, the loop over the list goes on, a callback returns, or the
application adds an entry under a process it started, or deletes one. -/
inductive Action where
  | handle
  | waitpid (pid ret : Int)
  | turn
  | ret
  | add (k : Nat) (pid : Int)
  | delete (k : Nat)
  deriving DecidableEq

/-- What a step shows. -/
inductive Event where
  | handled
  | returned
  | reaped (pid ret : Int)
  | skipped (k : Nat)
  | called (k : Nat) (ret : Int)
  | finished
  | resumed
  | added (k : Nat) (pid : Int)
  | deleted (k : Nat)
  | refused (k : Nat)
  deriving DecidableEq

/-- `p = tmp, tmp = tmp->next` of the loop. -/
def Processes.advance (s : Processes) (pid ret : Int) (tmp : Option Node) : Option Processes := do
  let p ← tmp
  some { s with frame := .scanning pid ret p (s.links.next p) }

/-- One turn of the loop over the list. -/
def Processes.turn (s : Processes) (pid ret : Int) (p : Node) (tmp : Option Node) :
    Option (Processes × Event) :=
  match p with
  | .head => some ({ s with frame := .waiting }, .finished)
  | .entry k =>
      if (s.process k).pid < pid then (s.advance pid ret tmp).map fun s => (s, .skipped k)
      else if pid < (s.process k).pid then some ({ s with frame := .waiting }, .finished)
      else (uloopProcessDelete s k).map fun r =>
        ({ r.1 with frame := .calling pid ret tmp }, .called k ret)

/-- The loop hands control to the application. -/
def Frame.Outside : Frame → Prop
  | .idle => True
  | .calling _ _ _ => True
  | _ => False

instance : ∀ f : Frame, Decidable f.Outside
  | .idle => inferInstanceAs (Decidable True)
  | .calling _ _ _ => inferInstanceAs (Decidable True)
  | .waiting => inferInstanceAs (Decidable False)
  | .scanning _ _ _ _ => inferInstanceAs (Decidable False)

/-- Whose turn it is. -/
def Enabled (s : Processes) : Action → Prop
  | .handle => s.frame = .idle
  | .waitpid _ _ => s.frame = .waiting
  | .turn => ∃ pid ret p tmp, s.frame = .scanning pid ret p tmp
  | .ret => ∃ pid ret tmp, s.frame = .calling pid ret tmp
  | .add k _ => s.frame.Outside ∧ k < s.count
  | .delete k => s.frame.Outside ∧ k < s.count

/-- One step; `none` where the action is not possible, and for a fault. -/
def step (s : Processes) : Action → Option (Processes × Event)
  | .handle =>
      match s.frame with
      | .idle => some ({ s with frame := .waiting }, .handled)
      | _ => none
  | .waitpid pid ret =>
      match s.frame with
      | .waiting =>
          if pid ≤ 0 then some ({ s with frame := .idle }, .returned)
          else (s.advance pid ret (s.links.next .head)).map fun s => (s, .reaped pid ret)
      | _ => none
  | .turn =>
      match s.frame with
      | .scanning pid ret p tmp => s.turn pid ret p tmp
      | _ => none
  | .ret =>
      match s.frame with
      | .calling pid ret tmp => (s.advance pid ret tmp).map fun s => (s, .resumed)
      | _ => none
  | .add k pid =>
      if s.frame.Outside ∧ k < s.count then
        if (s.process k).pending then (uloopProcessAdd s k).map fun r => (r.1, .refused k)
        else
          (uloopProcessAdd { s with
            process := Function.update s.process k { s.process k with pid } } k).map fun r =>
              (r.1, .added k pid)
      else none
  | .delete k =>
      if s.frame.Outside ∧ k < s.count then
        (uloopProcessDelete s k).map fun r =>
          (r.1, if (s.process k).pending then .deleted k else .refused k)
      else none

/-- Before the first call: the list is empty. -/
def initial (count : Nat) (pid : Nat → Int) : Processes :=
  { count
    process := fun k => { pending := false, pid := pid k }
    links := { next := fun n => if n = .head then some .head else none
               prev := fun n => if n = .head then some .head else none }
    frame := .idle }

/-! ## The list -/

/-- The ring leads through the entries `xs`: the pending ones, ordered by pid. -/
structure Listed (s : Processes) (xs : List Nat) : Prop where
  circle : Circle s.links .head (xs.map .entry)
  nodup : xs.Nodup
  pending_iff : ∀ k, (s.process k).pending = true ↔ k ∈ xs
  lt_count : ∀ k ∈ xs, k < s.count
  sorted : xs.Pairwise fun a b => (s.process a).pid ≤ (s.process b).pid

/-- The node a part of the list begins with. -/
def first : List Nat → Node
  | [] => .head
  | k :: _ => .entry k

theorem head_entries (bs : List Nat) : (bs.map Node.entry ++ [Node.head]).head? = some (first bs) := by
  cases bs <;> rfl

theorem entries_nodup {xs : List Nat} (h : xs.Nodup) : (Node.head :: xs.map .entry).Nodup := by
  refine List.nodup_cons.mpr ⟨by simp, h.map ?_⟩
  intro a b hab
  cases hab
  rfl

namespace Listed

variable {s : Processes} {xs as bs : List Nat} {k : Nat}

theorem length_le (h : Listed s xs) : xs.length ≤ s.count := by
  have hsub : xs ⊆ List.range s.count := fun k hk => List.mem_range.mpr (h.lt_count k hk)
  have hle := List.Nodup.length_le_of_subset h.nodup hsub
  rwa [List.length_range] at hle

theorem next_head (h : Listed s xs) : s.links.next .head = some (first xs) := by
  rw [h.circle.next_head, head_entries]

theorem next_entry (h : Listed s (as ++ k :: bs)) :
    s.links.next (.entry k) = some (first bs) := by
  have hcirc := h.circle
  rw [List.map_append, List.map_cons] at hcirc
  rw [hcirc.next_mem, head_entries]

/-- The next node of one on the list. -/
theorem next_first (h : Listed s (as ++ bs)) :
    ∃ n, s.links.next (first bs) = some n := by
  cases bs with
  | nil =>
      rw [List.append_nil] at h
      exact ⟨_, h.next_head⟩
  | cons b bs => exact ⟨_, h.next_entry⟩

theorem prev_first (h : Listed s (as ++ bs)) :
    s.links.prev (first bs) = (Node.head :: as.map .entry).getLast? := by
  have hcirc := h.circle
  rw [List.map_append] at hcirc
  cases bs with
  | nil =>
      rw [List.map_nil, List.append_nil] at hcirc
      exact hcirc.prev_head
  | cons b bs => exact hcirc.prev_mem

theorem congr {s' : Processes} (h : Listed s xs) (hlinks : s'.links = s.links)
    (hcount : s'.count = s.count)
    (hpending : ∀ j, (s'.process j).pending = (s.process j).pending)
    (hpid : ∀ j ∈ xs, (s'.process j).pid = (s.process j).pid) : Listed s' xs where
  circle := hlinks ▸ h.circle
  nodup := h.nodup
  pending_iff := fun j => by rw [hpending j, h.pending_iff j]
  lt_count := fun j hj => hcount ▸ h.lt_count j hj
  sorted := h.sorted.imp_of_mem fun ha hb hab => by rwa [hpid _ ha, hpid _ hb]

end Listed

variable {s s' : Processes} {xs as bs : List Nat} {k : Nat}

/-- Where the loop of `uloop_process_add` stops. -/
theorem place_spec (h : Listed s (as ++ bs)) (pid : Int) (fuel : Nat) (hfuel : bs.length < fuel) :
    ∃ cs ds, bs = cs ++ ds ∧ s.place pid fuel (first bs) = some (first ds) ∧
      (∀ c ∈ cs, (s.process c).pid ≤ pid) ∧ ∀ d ∈ ds, pid < (s.process d).pid := by
  induction bs generalizing as fuel with
  | nil =>
      cases fuel with
      | zero => cases hfuel
      | succ fuel => exact ⟨[], [], rfl, rfl, by simp, by simp⟩
  | cons b bs ih =>
      cases fuel with
      | zero => cases hfuel
      | succ fuel =>
          by_cases hb : pid < (s.process b).pid
          · refine ⟨[], b :: bs, rfl, if_pos hb, by simp, ?_⟩
            intro d hd
            rcases List.mem_cons.mp hd with rfl | hd
            · exact hb
            · have hsorted := (List.pairwise_append.mp h.sorted).2.1
              have hbd := (List.pairwise_cons.mp hsorted).1 d hd
              omega
          · have hlist : as ++ b :: bs = (as ++ [b]) ++ bs := by simp
            obtain ⟨cs, ds, rfl, hplace, hcs, hds⟩ :=
              ih (hlist ▸ h) fuel (Nat.lt_of_succ_lt_succ hfuel)
            refine ⟨b :: cs, ds, rfl, ?_, ?_, hds⟩
            · rw [first, Processes.place, if_neg hb, h.next_entry]
              exact hplace
            · intro c hc
              rcases List.mem_cons.mp hc with rfl | hc
              · omega
              · exact hcs c hc

/-- `uloop_process_add` puts the entry behind those with the same pid. -/
theorem uloopProcessAdd_spec (h : Listed s xs) (hk : k < s.count)
    (hpending : (s.process k).pending = false) :
    ∃ as bs links, xs = as ++ bs ∧
      (∀ a ∈ as, (s.process a).pid ≤ (s.process k).pid) ∧
      (∀ b ∈ bs, (s.process k).pid < (s.process b).pid) ∧
      uloopProcessAdd s k = some ({ s with
        links
        process := Function.update s.process k { s.process k with pending := true } }, 0) ∧
      Listed { s with
        links
        process := Function.update s.process k { s.process k with pending := true } }
        (as ++ k :: bs) := by
  have hxs : Listed s ([] ++ xs) := h
  obtain ⟨as, bs, rfl, hplace, has, hbs⟩ :=
    place_spec hxs (s.process k).pid (s.count + 1) (by have := h.length_le; omega)
  obtain ⟨p, hp⟩ : ∃ p, (Node.head :: as.map .entry).getLast? = some p :=
    ⟨_, List.getLast?_eq_some_getLast (List.cons_ne_nil _ _)⟩
  have hmem : k ∉ as ++ bs := by
    intro hmem
    rw [(h.pending_iff k).mpr hmem] at hpending
    cases hpending
  have hne : ∀ j ∈ as ++ bs, j ≠ k := fun j hj heq => hmem (heq ▸ hj)
  have hprocess : ∀ j, (Function.update s.process k
      { s.process k with pending := true } j).pid = (s.process j).pid := by
    intro j
    by_cases hj : j = k <;> simp [hj]
  refine ⟨as, bs, s.links.add (.entry k) p (first bs), rfl, has, hbs, ?_, ?_⟩
  · simp [uloopProcessAdd, hpending, h.next_head, hplace, h.prev_first, hp]
  · have hnodup : (Node.head :: (as.map .entry ++ bs.map .entry)).Nodup := by
      rw [← List.map_append]
      exact entries_nodup h.nodup
    have hcirc := h.circle
    rw [List.map_append] at hcirc
    have hnew := hcirc.add (x := Node.entry k) hnodup (by simpa using hmem) hp (head_entries bs)
    have hperm : (as ++ k :: bs).Perm (k :: (as ++ bs)) := List.perm_middle
    constructor
    · rw [List.map_append, List.map_cons]
      exact hnew
    · exact hperm.nodup_iff.mpr (List.nodup_cons.mpr ⟨hmem, h.nodup⟩)
    · intro j
      rw [hperm.mem_iff, List.mem_cons]
      by_cases hj : j = k
      · simp [hj]
      · simp [hj, h.pending_iff j]
    · intro j hj
      rcases List.mem_cons.mp (hperm.mem_iff.mp hj) with rfl | hj
      · exact hk
      · exact h.lt_count j hj
    · obtain ⟨hsas, hsbs, hmeet⟩ := List.pairwise_append.mp h.sorted
      simp only [hprocess]
      refine List.pairwise_append.mpr ⟨hsas, List.pairwise_cons.mpr ⟨?_, hsbs⟩, ?_⟩
      · exact fun b hb => Int.le_of_lt (hbs b hb)
      · intro a ha b hb
        rcases List.mem_cons.mp hb with rfl | hb
        · exact has a ha
        · exact hmeet a ha b hb

/-- `uloop_process_delete` takes the entry off the list. -/
theorem uloopProcessDelete_spec (h : Listed s (as ++ k :: bs)) :
    ∃ links, uloopProcessDelete s k = some ({ s with
        links
        process := Function.update s.process k { s.process k with pending := false } }, 0) ∧
      Listed { s with
        links
        process := Function.update s.process k { s.process k with pending := false } }
        (as ++ bs) := by
  have hperm : (as ++ k :: bs).Perm (k :: (as ++ bs)) := List.perm_middle
  obtain ⟨hk, hnodup⟩ := List.nodup_cons.mp (hperm.nodup_iff.mp h.nodup)
  have hpending : (s.process k).pending = true :=
    (h.pending_iff k).mpr (hperm.mem_iff.mpr List.mem_cons_self)
  have hcirc := h.circle
  have hnodup' := entries_nodup h.nodup
  rw [List.map_append, List.map_cons] at hcirc hnodup'
  obtain ⟨links, hdel, hnew, -⟩ := hcirc.del hnodup'
  refine ⟨links, ?_, ?_⟩
  · simp [uloopProcessDelete, hpending, hdel]
  · have hprocess : ∀ j, (Function.update s.process k
        { s.process k with pending := false } j).pid = (s.process j).pid := by
      intro j
      by_cases hj : j = k <;> simp [hj]
    constructor
    · rw [List.map_append]
      exact hnew
    · exact hnodup
    · intro j
      by_cases hj : j = k
      · simpa [hj] using hk
      · have hiff := h.pending_iff j
        rw [hperm.mem_iff, List.mem_cons, or_iff_right hj] at hiff
        simpa [hj] using hiff
    · exact fun j hj => h.lt_count j (hperm.mem_iff.mpr (List.mem_cons_of_mem k hj))
    · simp only [hprocess]
      exact h.sorted.sublist ((List.sublist_cons_self k bs).append_left as)

end Libubox.Uloop.Process
