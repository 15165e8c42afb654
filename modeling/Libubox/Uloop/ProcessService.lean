import Libubox.Uloop.Process

/-!
# The exit of child processes

What a run of the application and `uloop_handle_processes` promises
(`ExitService`): the callback of every entry registered for a process that
`waitpid` reaped is called once, unless another callback deletes the entry
first, and every other entry stays on the list, which is ordered in every state.

The loop keeps the next entry in `tmp` while a callback runs.  All of it needs
that a callback leaves this entry alone as long as it may be called, and adds
no entry for the reaped process where the loop is going to find it (`Spares`).
The invariant of a pass over the list is `Ahead`: from the node the loop goes to
next, the list holds exactly the entries still to be called.
-/

namespace Libubox.Uloop.Process

open Circles Machine

/-! ## The promise -/

/-- The entry is on the list for the process. -/
def Processes.Registered (s : Processes) (pid : Int) (k : Nat) : Prop :=
  (s.process k).pending = true ∧ (s.process k).pid = pid

instance (s : Processes) (pid : Int) (k : Nat) : Decidable (s.Registered pid k) :=
  inferInstanceAs (Decidable (_ ∧ _))

/-- The event takes the entry off the list. -/
def Event.Ends (k : Nat) : Event → Prop
  | .called j _ => k = j
  | .deleted j => k = j
  | _ => False

/-- The loop over the list for one reaped process in the run of `acts`: the
state before `waitpid` answers, the one the loop starts in, and the actions
and events of the loop so far. -/
structure Pass (s : Processes) (acts : List Action) where
  before : Processes
  entry : Processes
  state : Processes
  pid : Int
  ret : Int
  first : List Action
  body : List Action
  rest : List Action
  prior : List Event
  events : List Event
  acts_eq : acts = first ++ .waitpid pid ret :: (body ++ rest)
  run_first : run step s first = some (before, prior)
  enters : step before (.waitpid pid ret) = some (entry, .reaped pid ret)
  run_body : run step entry body = some (state, events)
  inside : .finished ∉ events

/-- What the loop promises in the run of `acts` from `s`. -/
structure ExitService (s : Processes) (acts : List Action) : Prop where
  /-- A call is for an entry that was registered for the process when it was
  reaped, that was not called since nor deleted, and that is no longer pending. -/
  called : ∀ (c : Pass s acts) after k ret, step c.state .turn = some (after, .called k ret) →
    ret = c.ret ∧ c.before.Registered c.pid k ∧ (∀ e ∈ c.events, ¬e.Ends k) ∧
      (after.process k).pending = false
  /-- When the loop ends, every entry that was registered for the process was
  called, or a callback deleted it. -/
  served : ∀ (c : Pass s acts) after, step c.state .turn = some (after, .finished) →
    ∀ k, c.before.Registered c.pid k → ∃ e ∈ c.events, e.Ends k
  /-- The other entries stay, unless a callback deletes them. -/
  others : ∀ (c : Pass s acts) k pid, c.before.Registered pid k → pid ≠ c.pid →
    .deleted k ∉ c.events → c.state.Registered pid k
  /-- So do the entries that callbacks add, for whatever process. -/
  added : ∀ (c : Pass s acts) front back k pid, c.events = front ++ .added k pid :: back →
    .deleted k ∉ back → c.state.Registered pid k
  /-- The loop comes to a call or to its end. -/
  progress : ∀ c : Pass s acts, (∃ p tmp, c.state.frame = .scanning c.pid c.ret p tmp) →
    ∃ m ≤ c.state.count + 1, ∃ s' events, run step c.state (List.replicate m .turn) =
      some (s', events) ∧ (s'.frame = .waiting ∨ ∃ tmp, s'.frame = .calling c.pid c.ret tmp)
  /-- In every state the list holds the pending entries, ordered by pid. -/
  listed : ∀ first rest s' events, acts = first ++ rest →
    run step s first = some (s', events) → ∃ xs, Listed s' xs
  /-- No step faults. -/
  enabled : ∀ first rest s' events, acts = first ++ rest →
    run step s first = some (s', events) → ∀ a, Enabled s' a → (step s' a).isSome

/-- What a callback must not do while the loop keeps the entry `j` as the next:
delete it as long as it may be called, add an entry for the process behind it,
or put `j` itself back where the loop would meet it. -/
def SparesEntry (s : Processes) (pid : Int) (j : Nat) : Action → Prop
  | .delete k => k = j → (s.process k).pending = true → pid < (s.process k).pid
  | .add k q => (s.process k).pending = false →
      (q = pid → pid < (s.process j).pid) ∧
        (k = j → pid < q ∨ q < pid ∧ ∀ i < s.count, ¬s.Registered pid i)
  | _ => True

/-- The action leaves the entry alone that the loop keeps as the next. -/
def Spares (s : Processes) (a : Action) : Prop :=
  match s.frame with
  | .calling pid _ (some (.entry j)) => SparesEntry s pid j a
  | _ => True

instance : ∀ s pid j a, Decidable (SparesEntry s pid j a)
  | s, pid, j, .delete k => inferInstanceAs (Decidable
      (k = j → (s.process k).pending = true → pid < (s.process k).pid))
  | s, pid, j, .add k q => inferInstanceAs (Decidable ((s.process k).pending = false →
      (q = pid → pid < (s.process j).pid) ∧
        (k = j → pid < q ∨ q < pid ∧ ∀ i < s.count, ¬s.Registered pid i)))
  | _, _, _, .handle => inferInstanceAs (Decidable True)
  | _, _, _, .waitpid _ _ => inferInstanceAs (Decidable True)
  | _, _, _, .turn => inferInstanceAs (Decidable True)
  | _, _, _, .ret => inferInstanceAs (Decidable True)

instance (s : Processes) (a : Action) : Decidable (Spares s a) :=
  match h : s.frame with
  | .calling pid _ (some (.entry j)) =>
      decidable_of_iff (SparesEntry s pid j a) (by simp [Spares, h])
  | .calling _ _ (some .head) => isTrue (by simp [Spares, h])
  | .calling _ _ none => isTrue (by simp [Spares, h])
  | .idle => isTrue (by simp [Spares, h])
  | .waiting => isTrue (by simp [Spares, h])
  | .scanning _ _ _ _ => isTrue (by simp [Spares, h])

/-! ## What a step does -/

variable {s s' : Processes} {xs as bs : List Nat} {k : Nat} {e : Event}

/-- The state with the entry put on the list. -/
def Processes.put (s : Processes) (k : Nat) (pid : Int) (links : Links Node) : Processes :=
  { s with links, process := Function.update s.process k { pending := true, pid } }

/-- The state with the entry taken off the list. -/
def Processes.take (s : Processes) (k : Nat) (links : Links Node) : Processes :=
  { s with
    links
    process := Function.update s.process k { s.process k with pending := false } }

theorem put_process (s : Processes) (k j : Nat) (pid : Int) (links : Links Node) :
    (s.put k pid links).process j = if j = k then { pending := true, pid } else s.process j := by
  by_cases hj : j = k <;> simp [Processes.put, hj]

theorem take_process (s : Processes) (k j : Nat) (links : Links Node) :
    (s.take k links).process j
      = if j = k then { s.process k with pending := false } else s.process j := by
  by_cases hj : j = k <;> simp [Processes.take, hj]

/-- The next node of the loop is there. -/
theorem advance_eq (s : Processes) (pid ret : Int) (n : Node) :
    s.advance pid ret (some n)
      = some { s with frame := .scanning pid ret n (s.links.next n) } := rfl

/-- What adding an entry does. -/
theorem step_add (h : Listed s xs) (pid : Int) (hon : s.frame.Outside ∧ k < s.count) :
    (k ∈ xs ∧ step s (.add k pid) = some (s, .refused k)) ∨
      (k ∉ xs ∧ ∃ as bs links, xs = as ++ bs ∧ (∀ a ∈ as, (s.process a).pid ≤ pid) ∧
        (∀ b ∈ bs, pid < (s.process b).pid) ∧
        step s (.add k pid) = some (s.put k pid links, .added k pid) ∧
        Listed (s.put k pid links) (as ++ k :: bs)) := by
  cases hpending : (s.process k).pending with
  | true =>
      left
      refine ⟨(h.pending_iff k).mp hpending, ?_⟩
      simp [step, hon, hpending, uloopProcessAdd]
  | false =>
      right
      have hk : k ∉ xs := by
        intro hmem
        rw [(h.pending_iff k).mpr hmem] at hpending
        cases hpending
      have hne : ∀ j ∈ xs, j ≠ k := fun j hj heq => hk (heq ▸ hj)
      -- the application sets the pid of an entry that is not on the list
      have hset : Listed { s with
          process := Function.update s.process k { s.process k with pid } } xs := by
        refine h.congr rfl rfl ?_ ?_
        · intro j
          by_cases hj : j = k <;> simp [hj]
        · intro j hj
          simp [hne j hj]
      obtain ⟨as, bs, links, rfl, has, hbs, hadd, hlisted⟩ :=
        uloopProcessAdd_spec (k := k) hset hon.2 (by simpa using hpending)
      have hput : ({ s with
          links
          process := Function.update (Function.update s.process k { s.process k with pid }) k
            { (Function.update s.process k { s.process k with pid }) k with
              pending := true } } : Processes) = s.put k pid links := by
        simp [Processes.put]
      refine ⟨hk, as, bs, links, rfl, ?_, ?_, ?_, ?_⟩
      · intro a ha
        simpa [hne a (List.mem_append_left bs ha)] using has a ha
      · intro b hb
        simpa [hne b (List.mem_append_right as hb)] using hbs b hb
      · rw [step, if_pos hon, hpending, if_neg Bool.false_ne_true, hadd, Option.map_some, hput]
      · rw [← hput]
        exact hlisted

theorem outside_of_add {q : Int} (hstep : step s (.add k q) = some (s', e)) :
    s.frame.Outside ∧ k < s.count := by
  by_contra hoff
  rw [step, if_neg hoff] at hstep
  cases hstep

theorem outside_of_delete (hstep : step s (.delete k) = some (s', e)) :
    s.frame.Outside ∧ k < s.count := by
  by_contra hoff
  rw [step, if_neg hoff] at hstep
  cases hstep

/-- What deleting an entry does. -/
theorem step_delete (h : Listed s xs) (hon : s.frame.Outside ∧ k < s.count) :
    (k ∉ xs ∧ step s (.delete k) = some (s, .refused k)) ∨
      ∃ as bs links, xs = as ++ k :: bs ∧
        step s (.delete k) = some (s.take k links, .deleted k) ∧
        Listed (s.take k links) (as ++ bs) := by
  cases hpending : (s.process k).pending with
  | true =>
      right
      obtain ⟨as, bs, rfl⟩ := List.append_of_mem ((h.pending_iff k).mp hpending)
      obtain ⟨links, hdelete, hlisted⟩ := uloopProcessDelete_spec h
      refine ⟨as, bs, links, rfl, ?_, hlisted⟩
      rw [step, if_pos hon, hdelete, hpending]
      rfl
  | false =>
      left
      constructor
      · intro hmem
        rw [(h.pending_iff k).mpr hmem] at hpending
        cases hpending
      · simp [step, hon, hpending, uloopProcessDelete]

/-- What `waitpid` leads to. -/
theorem step_waitpid (h : Listed s xs) (pid ret : Int) (hframe : s.frame = .waiting) :
    (pid ≤ 0 ∧ step s (.waitpid pid ret) = some ({ s with frame := .idle }, .returned)) ∨
      (0 < pid ∧ step s (.waitpid pid ret) =
        some ({ s with frame := .scanning pid ret (first xs) (s.links.next (first xs)) },
          .reaped pid ret)) := by
  by_cases hpid : pid ≤ 0
  · left
    refine ⟨hpid, ?_⟩
    simp [step, hframe, hpid]
  · right
    refine ⟨by omega, ?_⟩
    simp [step, hframe, hpid, h.next_head, advance_eq]

section

variable {pid ret : Int} {p n : Node} {tmp : Option Node}

theorem turn_head (hframe : s.frame = .scanning pid ret .head tmp) :
    step s .turn = some ({ s with frame := .waiting }, .finished) := by
  simp [step, hframe, Processes.turn]

theorem turn_lt (hframe : s.frame = .scanning pid ret (.entry k) (some n))
    (hlt : (s.process k).pid < pid) : step s .turn =
      some ({ s with frame := .scanning pid ret n (s.links.next n) }, .skipped k) := by
  simp [step, hframe, Processes.turn, hlt, advance_eq]

theorem turn_gt (hframe : s.frame = .scanning pid ret (.entry k) tmp)
    (hgt : pid < (s.process k).pid) :
    step s .turn = some ({ s with frame := .waiting }, .finished) := by
  have hlt : ¬(s.process k).pid < pid := by omega
  simp [step, hframe, Processes.turn, hlt, hgt]

/-- The loop takes an entry off the list and calls its callback. -/
theorem turn_eq (h : Listed s (as ++ k :: bs)) (hframe : s.frame = .scanning pid ret (.entry k) tmp)
    (heq : (s.process k).pid = pid) :
    ∃ links, step s .turn =
        some ({ s.take k links with frame := .calling pid ret tmp }, .called k ret) ∧
      Listed (s.take k links) (as ++ bs) := by
  obtain ⟨links, hdelete, hlisted⟩ := uloopProcessDelete_spec h
  refine ⟨links, ?_, hlisted⟩
  simp only [step, hframe, Processes.turn]
  rw [if_neg (by omega), if_neg (by omega), hdelete]
  rfl

theorem step_ret (hframe : s.frame = .calling pid ret (some n)) :
    step s .ret = some ({ s with frame := .scanning pid ret n (s.links.next n) }, .resumed) := by
  simp [step, hframe, advance_eq]

end

/-! ## A pass over the list -/

/-- From the node `n` on the list holds the entries `todo` and no others that are
registered for the process; or `n` is an entry taken off the list, one the loop
ends at, and nothing is to be done. -/
def Ahead (s : Processes) (pid : Int) (xs : List Nat) (n : Node) (todo : Nat → Prop) : Prop :=
  (∃ as bs, xs = as ++ bs ∧ n = first bs ∧ ∀ k, todo k ↔ k ∈ bs ∧ (s.process k).pid = pid) ∨
    ∃ j, n = .entry j ∧ j ∉ xs ∧ pid < (s.process j).pid ∧ ∀ k, ¬todo k

/-- The loop for the process `pid` stands in front of a turn, or in a callback. -/
def Stands (s : Processes) (pid ret : Int) (xs : List Nat) (todo : Nat → Prop) : Prop :=
  (∃ p, s.frame = .scanning pid ret p (s.links.next p) ∧ Ahead s pid xs p todo) ∨
    ∃ n, s.frame = .calling pid ret (some n) ∧ Ahead s pid xs n todo

section

variable {pid ret q : Int} {n : Node} {todo : Nat → Prop} {links : Links Node}

/-- An entry is put on the list while the loop keeps the node `n`. -/
theorem Ahead.put (hahead : Ahead s pid (as ++ bs) n todo) (h : Listed s (as ++ bs))
    (hk : k ∉ as ++ bs) (has : ∀ a ∈ as, (s.process a).pid ≤ q)
    (hbs : ∀ b ∈ bs, q < (s.process b).pid)
    (hspares : ∀ j, n = .entry j → SparesEntry s pid j (.add k q)) :
    Ahead (s.put k q links) pid (as ++ k :: bs) n todo := by
  have hpending : (s.process k).pending = false := by
    rw [Bool.eq_false_iff]
    exact fun hp => hk ((h.pending_iff k).mp hp)
  have hpid : ∀ j, j ≠ k → ((s.put k q links).process j).pid = (s.process j).pid := by
    intro j hj
    rw [put_process, if_neg hj]
  have hpid_k : ((s.put k q links).process k).pid = q := by rw [put_process, if_pos rfl]
  have hne : ∀ j ∈ as ++ bs, j ≠ k := fun j hj heq => hk (heq ▸ hj)
  obtain ⟨as', bs', hlist, rfl, htodo⟩ | ⟨j, rfl, hj, hgt, hnone⟩ := hahead
  · -- where the new entry stands from the kept node
    left
    obtain ⟨cs, rfl, rfl⟩ | ⟨cs, rfl, rfl⟩ := List.append_eq_append_iff.mp hlist
    · refine ⟨as ++ k :: cs, bs', by simp, rfl, ?_⟩
      intro i
      rw [htodo i]
      refine and_congr_right fun hi => ?_
      rw [hpid i (hne i (by simp [hi]))]
    · cases cs with
      | nil =>
          refine ⟨as' ++ [k], bs, by simp, by simp, ?_⟩
          intro i
          rw [htodo i, List.nil_append]
          refine and_congr_right fun hi => ?_
          rw [hpid i (hne i (by simp [hi]))]
      | cons c cs =>
          refine ⟨as', c :: cs ++ k :: bs, by simp, rfl, ?_⟩
          have hq : q ≠ pid := by
            intro heq
            have hc := (hspares c rfl hpending).1 heq
            have hcq := has c (by simp)
            omega
          intro i
          rw [htodo i]
          by_cases hi : i = k
          · subst i
            simp only [hpid_k, hq, and_false, iff_false, not_and]
            exact fun hmem => absurd rfl (hne k (by
              rw [List.append_assoc]
              exact List.mem_append_right as' hmem))
          · rw [hpid i hi]
            simp [hi]
  · by_cases hjk : j = k
    · -- the kept entry itself comes back
      subst j
      left
      refine ⟨as, k :: bs, rfl, rfl, ?_⟩
      intro i
      refine iff_of_false (hnone i) ?_
      rintro ⟨hi, hieq⟩
      obtain hq | ⟨hq, hfree⟩ := (hspares k rfl hpending).2 rfl
      · rcases List.mem_cons.mp hi with rfl | hi
        · omega
        · have hlt := hbs i hi
          rw [hpid i (hne i (by simp [hi]))] at hieq
          omega
      · rcases List.mem_cons.mp hi with rfl | hi
        · omega
        · have hmem : i ∈ as ++ bs := List.mem_append_right as hi
          rw [hpid i (hne i hmem)] at hieq
          exact hfree i (h.lt_count i hmem) ⟨(h.pending_iff i).mpr hmem, hieq⟩
    · right
      refine ⟨j, rfl, ?_, ?_, hnone⟩
      · simp only [List.mem_append, List.mem_cons, not_or] at hj ⊢
        exact ⟨hj.1, hjk, hj.2⟩
      · rw [hpid j hjk]
        exact hgt

/-- An entry is taken off the list while the loop keeps the node `n`. -/
theorem Ahead.take (hahead : Ahead s pid (as ++ k :: bs) n todo) (h : Listed s (as ++ k :: bs))
    (hspares : n = .entry k → pid < (s.process k).pid) :
    Ahead (s.take k links) pid (as ++ bs) n fun i => todo i ∧ i ≠ k := by
  have hpid : ∀ j, ((s.take k links).process j).pid = (s.process j).pid := by
    intro j
    rw [take_process]
    by_cases hj : j = k <;> simp [hj]
  have hperm : (as ++ k :: bs).Perm (k :: (as ++ bs)) := List.perm_middle
  obtain ⟨hk, -⟩ := List.nodup_cons.mp (hperm.nodup_iff.mp h.nodup)
  obtain ⟨as', bs', hlist, rfl, htodo⟩ | ⟨j, rfl, hj, hgt, hnone⟩ := hahead
  · by_cases hfirst : first bs' = .entry k
    · -- the kept entry goes off the list: those behind it are not smaller
      right
      refine ⟨k, hfirst, hk, by rw [hpid]; exact hspares hfirst, ?_⟩
      intro i hi
      have hgt := hspares hfirst
      obtain ⟨hmem, hieq⟩ := (htodo i).mp hi.1
      cases bs' with
      | nil => cases hfirst
      | cons b bs' =>
          cases hfirst
          rw [hlist] at h
          have hsorted := (List.pairwise_append.mp h.sorted).2.1
          have hle := (List.pairwise_cons.mp hsorted).1 i
            ((List.mem_cons.mp hmem).resolve_left hi.2)
          omega
    · left
      obtain ⟨cs, rfl, hcs⟩ | ⟨cs, rfl, rfl⟩ := List.append_eq_append_iff.mp hlist
      · cases cs with
        | nil => exact absurd (congrArg first hcs.symm) hfirst
        | cons c cs =>
            obtain ⟨rfl, rfl⟩ := List.cons.inj hcs
            refine ⟨as ++ cs, bs', by simp, rfl, ?_⟩
            intro i
            rw [hpid, ← htodo i]
            refine and_iff_left_of_imp fun hi heq => hk (heq ▸ ?_)
            have hmem := ((htodo i).mp hi).1
            simp [hmem]
      · cases cs with
        | nil => exact absurd rfl hfirst
        | cons c cs =>
            refine ⟨as', c :: cs ++ bs, by simp, rfl, ?_⟩
            intro i
            change todo i ∧ i ≠ k ↔ _
            rw [htodo i, hpid]
            constructor
            · intro ⟨⟨hmem, hieq⟩, hik⟩
              simp only [List.cons_append, List.mem_append, List.mem_cons, hik, false_or]
                at hmem ⊢
              exact ⟨hmem, hieq⟩
            · intro ⟨hmem, hieq⟩
              refine ⟨⟨?_, hieq⟩, fun heq => hk (heq ▸ ?_)⟩
              · simp only [List.cons_append, List.mem_append, List.mem_cons] at hmem ⊢
                tauto
              · rw [List.append_assoc]
                exact List.mem_append_right as' hmem
  · right
    refine ⟨j, rfl, fun hmem => hj (hperm.mem_iff.mpr (List.mem_cons_of_mem k hmem)), ?_, ?_⟩
    · rw [hpid]
      exact hgt
    · exact fun i hi => hnone i hi.1

/-- What a turn does. -/
theorem turn_cases {p : Node} (h : Listed s xs)
    (hframe : s.frame = .scanning pid ret p (s.links.next p)) (hahead : Ahead s pid xs p todo) :
    (step s .turn = some ({ s with frame := .waiting }, .finished) ∧ ∀ k, ¬todo k) ∨
      (∃ k n, step s .turn =
          some ({ s with frame := .scanning pid ret n (s.links.next n) }, .skipped k) ∧
        Ahead s pid xs n todo) ∨
      ∃ k xs' links n, step s .turn =
          some ({ s.take k links with frame := .calling pid ret (some n) }, .called k ret) ∧
        todo k ∧ Listed (s.take k links) xs' ∧
        Ahead (s.take k links) pid xs' n fun i => todo i ∧ i ≠ k := by
  obtain ⟨as, bs, rfl, rfl, htodo⟩ | ⟨j, rfl, hj, hgt, hnone⟩ := hahead
  · cases bs with
    | nil =>
        left
        refine ⟨turn_head hframe, fun k hk => ?_⟩
        simpa using (htodo k).mp hk
    | cons b bs =>
        have hnext := h.next_entry
        have hsorted := (List.pairwise_append.mp h.sorted).2.1
        rw [first, hnext] at hframe
        obtain hlt | heq | hgt :=
          Int.lt_trichotomy (s.process b).pid pid
        · -- an entry for a smaller pid
          right; left
          refine ⟨b, first bs, turn_lt hframe hlt, .inl ⟨as ++ [b], bs, by simp, rfl, ?_⟩⟩
          intro k
          rw [htodo k, List.mem_cons]
          constructor
          · rintro ⟨hmem, hkeq⟩
            refine ⟨hmem.resolve_left ?_, hkeq⟩
            rintro rfl
            omega
          · exact fun hk => ⟨.inr hk.1, hk.2⟩
        · right; right
          obtain ⟨links, hstep, hlisted⟩ := turn_eq h hframe heq
          refine ⟨b, as ++ bs, links, first bs, hstep, (htodo b).mpr ⟨List.mem_cons_self, heq⟩,
            hlisted, .inl ⟨as, bs, rfl, rfl, ?_⟩⟩
          have hb : b ∉ bs := (List.nodup_cons.mp (List.nodup_append.mp h.nodup).2.1).1
          intro i
          change todo i ∧ i ≠ b ↔ _
          rw [htodo i, List.mem_cons, take_process]
          by_cases hi : i = b
          · subst i
            simp [hb]
          · simp [hi]
        · left
          refine ⟨turn_gt hframe hgt, fun k hk => ?_⟩
          obtain ⟨hmem, hkeq⟩ := (htodo k).mp hk
          rcases List.mem_cons.mp hmem with rfl | hmem
          · omega
          · have hle := (List.pairwise_cons.mp hsorted).1 k hmem
            omega
  · left
    exact ⟨turn_gt hframe hgt, hnone⟩

theorem Ahead.mem {j : Nat} (hahead : Ahead s pid xs n todo) (hj : todo j) : j ∈ xs := by
  obtain ⟨as, bs, rfl, -, htodo⟩ | ⟨-, -, -, -, hnone⟩ := hahead
  · exact List.mem_append_right as ((htodo j).mp hj).1
  · exact absurd hj (hnone j)

theorem Stands.mem {j : Nat} (hstands : Stands s pid ret xs todo) (hj : todo j) : j ∈ xs := by
  obtain ⟨p, -, hahead⟩ | ⟨n, -, hahead⟩ := hstands
  · exact hahead.mem hj
  · exact hahead.mem hj

/-- An event that ends nothing leaves the entries to be called. -/
theorem Stands.of_not_ends (hstands : Stands s pid ret xs todo) (he : ∀ k, ¬e.Ends k) :
    Stands s pid ret xs fun k => todo k ∧ ¬e.Ends k := by
  have heq : (fun k => todo k ∧ ¬e.Ends k) = todo := by
    funext k
    simp [he k]
  rwa [heq]

/-- **One step of a pass.**  The loop ends with nothing to be done, or it stands
again, with one entry less where one was called or deleted. -/
theorem stands_step {a : Action} (h : Listed s xs) (hstands : Stands s pid ret xs todo)
    (hspares : Spares s a) (hstep : step s a = some (s', e)) :
    (e = .finished ∧ s' = { s with frame := .waiting } ∧ ∀ k, ¬todo k) ∨
      ∃ xs', e ≠ .finished ∧ Listed s' xs' ∧
        Stands s' pid ret xs' (fun k => todo k ∧ ¬e.Ends k) ∧
        ∀ k r, e = .called k r → todo k ∧ r = ret ∧ (s'.process k).pending = false := by
  obtain ⟨p, hframe, hahead⟩ | ⟨n, hframe, hahead⟩ := hstands
  · cases a with
    | turn =>
        obtain ⟨heq, hnone⟩ | ⟨k, n, heq, hnew⟩ | ⟨k, xs', links, n, heq, hk, hlisted, hnew⟩ :=
          turn_cases h hframe hahead
        · rw [hstep] at heq
          cases heq
          exact .inl ⟨rfl, rfl, hnone⟩
        · rw [hstep] at heq
          cases heq
          refine .inr ⟨xs, nofun, h.congr rfl rfl (fun _ => rfl) fun _ _ => rfl, ?_, nofun⟩
          exact Stands.of_not_ends (.inl ⟨n, rfl, hnew⟩) fun _ => id
        · rw [hstep] at heq
          cases heq
          refine .inr ⟨xs', nofun, hlisted.congr rfl rfl (fun _ => rfl) fun _ _ => rfl,
            .inr ⟨n, rfl, hnew⟩, ?_⟩
          intro j r hcalled
          cases hcalled
          refine ⟨hk, rfl, ?_⟩
          change ((s.take k links).process k).pending = false
          rw [take_process, if_pos rfl]
    | add k q => simp [step, hframe, Frame.Outside] at hstep
    | delete k => simp [step, hframe, Frame.Outside] at hstep
    | _ => simp [step, hframe] at hstep
  · right
    have hkept : ∀ j, n = .entry j → SparesEntry s pid j a := by
      intro j hj
      simpa [Spares, hframe, hj] using hspares
    cases a with
    | ret =>
        rw [step_ret hframe] at hstep
        cases hstep
        refine ⟨xs, nofun, h.congr rfl rfl (fun _ => rfl) fun _ _ => rfl, ?_, nofun⟩
        exact Stands.of_not_ends (.inl ⟨n, rfl, hahead⟩) fun _ => id
    | add k q =>
        obtain ⟨-, heq⟩ | ⟨hk, as, bs, links, rfl, has, hbs, heq, hlisted⟩ := step_add h q (outside_of_add hstep)
        · rw [hstep] at heq
          cases heq
          exact ⟨xs, nofun, h, Stands.of_not_ends (.inr ⟨n, hframe, hahead⟩) fun _ => id, nofun⟩
        · rw [hstep] at heq
          cases heq
          refine ⟨_, nofun, hlisted, ?_, nofun⟩
          exact Stands.of_not_ends
            (.inr ⟨n, hframe, hahead.put h hk has hbs hkept⟩) fun _ => id
    | delete k =>
        obtain ⟨-, heq⟩ | ⟨as, bs, links, rfl, heq, hlisted⟩ := step_delete h (outside_of_delete hstep)
        · rw [hstep] at heq
          cases heq
          exact ⟨xs, nofun, h, Stands.of_not_ends (.inr ⟨n, hframe, hahead⟩) fun _ => id, nofun⟩
        · rw [hstep] at heq
          cases heq
          refine ⟨_, nofun, hlisted, .inr ⟨n, hframe, hahead.take h ?_⟩, nofun⟩
          intro hn
          exact hkept k hn rfl ((h.pending_iff k).mpr (by simp))
    | _ => simp [step, hframe] at hstep

/-- A pass over the list. -/
theorem stands_run {acts : List Action} {events : List Event} (h : Listed s xs)
    (hstands : Stands s pid ret xs todo) (hok : Along step Spares s acts)
    (hrun : run step s acts = some (s', events)) (hinside : .finished ∉ events) :
    ∃ xs', Listed s' xs' ∧ Stands s' pid ret xs' (fun k => todo k ∧ ∀ e ∈ events, ¬e.Ends k) ∧
      ∀ k r, .called k r ∈ events → todo k := by
  induction acts generalizing s xs todo events with
  | nil =>
      cases hrun
      exact ⟨xs, h, by simpa using hstands, nofun⟩
  | cons a acts ih =>
      obtain ⟨s₁, e, rest, hstep, hrest, rfl⟩ := run_cons_eq_some.mp hrun
      obtain ⟨rfl, -⟩ | ⟨xs₁, -, h₁, hstands₁, hcalled⟩ := stands_step h hstands hok.1 hstep
      · exact absurd List.mem_cons_self hinside
      · obtain ⟨xs', h', hstands', hcalls⟩ := ih h₁ hstands₁ (hok.2 (s₁, e) hstep) hrest
          fun hmem => hinside (List.mem_cons_of_mem e hmem)
        refine ⟨xs', h', ?_, ?_⟩
        · simpa only [List.forall_mem_cons, and_assoc] using hstands'
        · intro k r hmem
          rcases List.mem_cons.mp hmem with heq | hmem
          · exact (hcalled k r heq.symm).1
          · exact (hcalls k r hmem).1

theorem run_turn {r : Processes × Event} (hstep : step s .turn = some r) :
    run step s (List.replicate 1 .turn) = some (r.1, [r.2]) :=
  run_cons_eq_some.mpr ⟨r.1, r.2, [], hstep, rfl, rfl⟩

/-- The loop comes to a call or to its end. -/
theorem exists_stop (h : Listed s (as ++ bs))
    (hframe : s.frame = .scanning pid ret (first bs) (s.links.next (first bs))) :
    ∃ m ≤ bs.length + 1, ∃ s' events, run step s (List.replicate m .turn) = some (s', events) ∧
      (s'.frame = .waiting ∨ ∃ tmp, s'.frame = .calling pid ret tmp) := by
  induction bs generalizing as s with
  | nil => exact ⟨1, by simp, _, _, run_turn (turn_head hframe), .inl rfl⟩
  | cons b bs ih =>
      have hframe' := hframe
      rw [first, h.next_entry] at hframe'
      obtain hlt | heq | hgt :=
          Int.lt_trichotomy (s.process b).pid pid
      · have hstep := turn_lt hframe' hlt
        have hlist : as ++ b :: bs = (as ++ [b]) ++ bs := by simp
        have hnext : Listed { s with
            frame := .scanning pid ret (first bs) (s.links.next (first bs)) } ((as ++ [b]) ++ bs) :=
          (hlist ▸ h).congr rfl rfl (fun _ => rfl) fun _ _ => rfl
        obtain ⟨m, hm, s', events, hrun, hstop⟩ := ih hnext rfl
        refine ⟨m + 1, by simp; omega, s', .skipped b :: events, ?_, hstop⟩
        exact run_cons_eq_some.mpr ⟨_, _, events, hstep, hrun, rfl⟩
      · obtain ⟨links, hstep, -⟩ := turn_eq h hframe' heq
        exact ⟨1, by simp, _, _, run_turn hstep, .inr ⟨_, rfl⟩⟩
      · exact ⟨1, by simp, _, _, run_turn (turn_gt hframe' hgt), .inl rfl⟩

end

/-! ## Every run -/

/-- The list is in order, and the loop stands right on it. -/
def Steady (s : Processes) : Prop :=
  ∃ xs, Listed s xs ∧ (s.frame = .idle ∨ s.frame = .waiting ∨
    ∃ pid ret todo, Stands s pid ret xs todo)

theorem listed_initial (count : Nat) (pid : Nat → Int) : Listed (initial count pid) [] where
  circle := by simp [Circles.Circle, Links.Follows, initial]
  nodup := .nil
  pending_iff := by simp [initial]
  lt_count := nofun
  sorted := .nil

/-- What the loop starts with. -/
theorem stands_enters {pid ret : Int} (h : Listed s xs)
    (hstep : step s (.waitpid pid ret) = some (s', .reaped pid ret)) :
    Listed s' xs ∧ Stands s' pid ret xs (s.Registered pid) ∧ s'.process = s.process := by
  have hframe : s.frame = .waiting := by
    cases hf : s.frame with
    | waiting => rfl
    | _ => simp [step, hf] at hstep
  obtain ⟨-, heq⟩ | ⟨-, heq⟩ := step_waitpid h pid ret hframe
  · rw [hstep] at heq
    cases heq
  · rw [hstep] at heq
    cases heq
    refine ⟨h.congr rfl rfl (fun _ => rfl) fun _ _ => rfl,
      .inl ⟨first xs, rfl, .inl ⟨[], xs, rfl, rfl, ?_⟩⟩, rfl⟩
    exact fun k => and_congr_left' (h.pending_iff k)

theorem Steady.kept {a : Action} (h : Steady s) (hspares : Spares s a)
    (hstep : step s a = some (s', e)) : Steady s' := by
  obtain ⟨xs, hlisted, hidle | hwaiting | ⟨pid, ret, todo, hstands⟩⟩ := h
  · cases a with
    | handle =>
        rw [step, hidle] at hstep
        cases hstep
        exact ⟨xs, hlisted.congr rfl rfl (fun _ => rfl) fun _ _ => rfl, .inr (.inl rfl)⟩
    | add k q =>
        obtain ⟨-, heq⟩ | ⟨-, as, bs, links, -, -, -, heq, hnew⟩ := step_add hlisted q (outside_of_add hstep)
        · rw [hstep] at heq
          cases heq
          exact ⟨xs, hlisted, .inl hidle⟩
        · rw [hstep] at heq
          cases heq
          exact ⟨_, hnew, .inl hidle⟩
    | delete k =>
        obtain ⟨-, heq⟩ | ⟨as, bs, links, -, heq, hnew⟩ := step_delete hlisted (outside_of_delete hstep)
        · rw [hstep] at heq
          cases heq
          exact ⟨xs, hlisted, .inl hidle⟩
        · rw [hstep] at heq
          cases heq
          exact ⟨_, hnew, .inl hidle⟩
    | _ => simp [step, hidle] at hstep
  · cases a with
    | waitpid pid ret =>
        obtain ⟨-, heq⟩ | ⟨-, heq⟩ := step_waitpid hlisted pid ret hwaiting
        · rw [hstep] at heq
          cases heq
          exact ⟨xs, hlisted.congr rfl rfl (fun _ => rfl) fun _ _ => rfl, .inl rfl⟩
        · rw [hstep] at heq
          cases heq
          obtain ⟨hnew, hstands, -⟩ := stands_enters hlisted hstep
          exact ⟨xs, hnew, .inr (.inr ⟨pid, ret, _, hstands⟩)⟩
    | add k q => simp [step, hwaiting, Frame.Outside] at hstep
    | delete k => simp [step, hwaiting, Frame.Outside] at hstep
    | _ => simp [step, hwaiting] at hstep
  · obtain ⟨-, rfl, -⟩ | ⟨xs', -, hlisted', hstands', -⟩ :=
      stands_step hlisted hstands hspares hstep
    · exact ⟨xs, hlisted.congr rfl rfl (fun _ => rfl) fun _ _ => rfl, .inr (.inl rfl)⟩
    · exact ⟨xs', hlisted', .inr (.inr ⟨pid, ret, _, hstands'⟩)⟩

/-- An entry stays on the list until an event takes it off. -/
theorem Steady.registered_kept {a : Action} {pid : Int} (h : Steady s)
    (hstep : step s a = some (s', e)) (hk : s.Registered pid k) (he : ¬e.Ends k) :
    s'.Registered pid k := by
  obtain ⟨xs, hlisted, hframe⟩ := h
  have hmem := (hlisted.pending_iff k).mp hk.1
  cases a with
  | handle =>
      cases hf : s.frame <;> simp only [step, hf, reduceCtorEq] at hstep
      cases hstep
      exact hk
  | waitpid q ret =>
      have hf : s.frame = .waiting := by
        cases hf : s.frame with
        | waiting => rfl
        | _ => simp [step, hf] at hstep
      obtain ⟨-, heq⟩ | ⟨-, heq⟩ := step_waitpid hlisted q ret hf
      all_goals
        rw [hstep] at heq
        cases heq
        exact hk
  | turn =>
      obtain hf | hf | ⟨q, ret, todo, ⟨p, hf, hahead⟩ | ⟨n, hf, -⟩⟩ := hframe
      · simp [step, hf] at hstep
      · simp [step, hf] at hstep
      · obtain ⟨heq, -⟩ | ⟨j, n, heq, -⟩ | ⟨j, xs', links, n, heq, -⟩ :=
          turn_cases hlisted hf hahead
        · rw [hstep] at heq
          cases heq
          exact hk
        · rw [hstep] at heq
          cases heq
          exact hk
        · rw [hstep] at heq
          cases heq
          have hne : k ≠ j := he
          change (s.take j links).Registered pid k
          rw [Processes.Registered, take_process, if_neg hne]
          exact hk
      · simp [step, hf] at hstep
  | ret =>
      obtain hf | hf | ⟨q, ret, todo, ⟨p, hf, -⟩ | ⟨n, hf, -⟩⟩ := hframe
      · simp [step, hf] at hstep
      · simp [step, hf] at hstep
      · simp [step, hf] at hstep
      · rw [step_ret hf] at hstep
        cases hstep
        exact hk
  | add j q =>
      obtain ⟨-, heq⟩ | ⟨hj, as, bs, links, -, -, -, heq, -⟩ :=
        step_add hlisted q (outside_of_add hstep)
      · rw [hstep] at heq
        cases heq
        exact hk
      · rw [hstep] at heq
        cases heq
        have hne : k ≠ j := fun heq => hj (heq ▸ hmem)
        rw [Processes.Registered, put_process, if_neg hne]
        exact hk
  | delete j =>
      obtain ⟨-, heq⟩ | ⟨as, bs, links, -, heq, -⟩ :=
        step_delete hlisted (outside_of_delete hstep)
      · rw [hstep] at heq
        cases heq
        exact hk
      · rw [hstep] at heq
        cases heq
        have hne : k ≠ j := he
        rw [Processes.Registered, take_process, if_neg hne]
        exact hk

theorem Steady.registered_run {acts : List Action} {events : List Event} {pid : Int}
    (h : Steady s) (hok : Along step Spares s acts) (hrun : run step s acts = some (s', events))
    (hk : s.Registered pid k) (hevents : ∀ e ∈ events, ¬e.Ends k) : s'.Registered pid k := by
  have hkeep : ∀ s a s' e, Steady s ∧ s.Registered pid k → Spares s a →
      step s a = some (s', e) → ¬e.Ends k → Steady s' ∧ s'.Registered pid k := by
    intro s a s' e hs ha hstep he
    exact ⟨hs.1.kept ha hstep, hs.1.registered_kept hstep hs.2 he⟩
  exact (run_invariant_of_trace _ hkeep ⟨h, hk⟩ hok hrun hevents).2

/-- An entry that is added was not on the list, and is now. -/
theorem Steady.registered_added {a : Action} {pid : Int} (h : Steady s)
    (hstep : step s a = some (s', .added k pid)) :
    (s.process k).pending = false ∧ s'.Registered pid k := by
  obtain ⟨xs, hlisted, hframe⟩ := h
  cases a with
  | add j q =>
      obtain ⟨-, heq⟩ | ⟨hj, as, bs, links, -, -, -, heq, -⟩ :=
        step_add hlisted q (outside_of_add hstep)
      · rw [hstep] at heq
        cases heq
      · rw [hstep] at heq
        cases heq
        constructor
        · rw [Bool.eq_false_iff]
          exact fun hp => hj ((hlisted.pending_iff k).mp hp)
        · rw [Processes.Registered, put_process, if_pos rfl]
          exact ⟨rfl, rfl⟩
  | delete j =>
      obtain ⟨-, heq⟩ | ⟨as, bs, links, -, heq, -⟩ :=
        step_delete hlisted (outside_of_delete hstep)
      all_goals
        rw [hstep] at heq
        cases heq
  | handle =>
      cases hf : s.frame <;> simp [step, hf] at hstep
  | waitpid q ret =>
      have hf : s.frame = .waiting := by
        cases hf : s.frame with
        | waiting => rfl
        | _ => simp [step, hf] at hstep
      obtain ⟨-, heq⟩ | ⟨-, heq⟩ := step_waitpid hlisted q ret hf
      all_goals
        rw [hstep] at heq
        cases heq
  | turn =>
      obtain hf | hf | ⟨q, ret, todo, ⟨p, hf, hahead⟩ | ⟨n, hf, -⟩⟩ := hframe
      · simp [step, hf] at hstep
      · simp [step, hf] at hstep
      · obtain ⟨heq, -⟩ | ⟨j, n, heq, -⟩ | ⟨j, xs', links, n, heq, -⟩ :=
          turn_cases hlisted hf hahead
        all_goals
          rw [hstep] at heq
          cases heq
      · simp [step, hf] at hstep
  | ret =>
      obtain hf | hf | ⟨q, ret, todo, ⟨p, hf, -⟩ | ⟨n, hf, -⟩⟩ := hframe
      · simp [step, hf] at hstep
      · simp [step, hf] at hstep
      · simp [step, hf] at hstep
      · rw [step_ret hf] at hstep
        cases hstep

/-- A step that is somebody's turn can be made. -/
theorem Steady.isSome_step {a : Action} (h : Steady s) (ha : Enabled s a) :
    (step s a).isSome := by
  obtain ⟨xs, hlisted, hframe⟩ := h
  cases a with
  | handle =>
      have hf : s.frame = .idle := ha
      simp [step, hf]
  | waitpid q ret =>
      obtain ⟨-, heq⟩ | ⟨-, heq⟩ := step_waitpid hlisted q ret ha <;> simp [heq]
  | turn =>
      obtain ⟨q, ret, p, tmp, hf⟩ := ha
      obtain hi | hw | ⟨q', ret', todo, ⟨p', hf', hahead⟩ | ⟨n, hf', -⟩⟩ := hframe
      · simp [hf] at hi
      · simp [hf] at hw
      · obtain ⟨heq, -⟩ | ⟨j, n, heq, -⟩ | ⟨j, xs', links, n, heq, -⟩ :=
          turn_cases hlisted hf' hahead <;> simp [heq]
      · simp [hf] at hf'
  | ret =>
      obtain ⟨q, ret, tmp, hf⟩ := ha
      obtain hi | hw | ⟨q', ret', todo, ⟨p', hf', -⟩ | ⟨n, hf', -⟩⟩ := hframe
      · simp [hf] at hi
      · simp [hf] at hw
      · simp [hf] at hf'
      · simp [step_ret hf']
  | add j q =>
      obtain ⟨-, heq⟩ | ⟨-, as, bs, links, -, -, -, heq, -⟩ := step_add hlisted q ha <;>
        simp [heq]
  | delete j =>
      obtain ⟨-, heq⟩ | ⟨as, bs, links, -, heq, -⟩ := step_delete hlisted ha <;> simp [heq]

theorem spares_turn (s : Processes) : Spares s .turn := by
  unfold Spares
  split <;> trivial

section

variable {acts : List Action}

/-- What is known of a pass in a run that starts right. -/
theorem Pass.stands (h : Steady s) (hok : Along step Spares s acts) (c : Pass s acts) :
    Steady c.before ∧ Steady c.entry ∧ Along step Spares c.entry c.body ∧
      ∃ xs, Listed c.state xs ∧
        Stands c.state c.pid c.ret xs (fun k => c.before.Registered c.pid k ∧
          ∀ e ∈ c.events, ¬e.Ends k) ∧
        ∀ k r, .called k r ∈ c.events → c.before.Registered c.pid k := by
  have hkeep : ∀ s a s' e, Steady s → Spares s a → step s a = some (s', e) → Steady s' :=
    fun s a s' e hs ha hstep => hs.kept ha hstep
  rw [c.acts_eq] at hok
  obtain ⟨hfirst, hrest⟩ := hok.append c.run_first
  have hbefore := run_invariant hkeep h hfirst c.run_first
  have hbody : Along step Spares c.entry (c.body ++ c.rest) := hrest.2 (c.entry, _) c.enters
  have hentry := hbefore.kept hrest.1 c.enters
  have hbefore' := hbefore
  obtain ⟨xs, hlisted, -⟩ := hbefore
  obtain ⟨hlisted', hstands, -⟩ := stands_enters hlisted c.enters
  exact ⟨hbefore', hentry, (hbody.append c.run_body).1,
    stands_run hlisted' hstands (hbody.append c.run_body).1 c.run_body c.inside⟩

/-- **The exit service.**  In every run whose callbacks leave the entry alone that
the loop keeps as the next, a process that is reaped is reported to every entry
registered for it, once, and to no other. -/
theorem exitService_of_spares (count : Nat) (pid : Nat → Int) {acts : List Action}
    (hok : Along step Spares (initial count pid) acts) :
    ExitService (initial count pid) acts := by
  have hinit : Steady (initial count pid) := ⟨[], listed_initial count pid, .inl rfl⟩
  have hkeep : ∀ s a s' e, Steady s → Spares s a → step s a = some (s', e) → Steady s' :=
    fun s a s' e hs ha hstep => hs.kept ha hstep
  have hsteady : ∀ front rest s' events, acts = front ++ rest →
      run step (initial count pid) front = some (s', events) → Steady s' := by
    intro front rest s' events hacts hrun
    rw [hacts] at hok
    exact run_invariant hkeep hinit (hok.append hrun).1 hrun
  constructor
  · -- a call is a turn of the loop, where the entry is still to be called
    intro c after k ret hstep
    obtain ⟨-, -, -, xs, hlisted, hstands, -⟩ := c.stands hinit hok
    obtain ⟨heq, -⟩ | ⟨xs', -, -, -, hcalled⟩ :=
      stands_step hlisted hstands (spares_turn c.state) hstep
    · cases heq
    · obtain ⟨⟨hk, hevents⟩, hret, hpending⟩ := hcalled k ret rfl
      exact ⟨hret, hk, hevents, hpending⟩
  · intro c after hstep k hk
    obtain ⟨-, -, -, xs, hlisted, hstands, -⟩ := c.stands hinit hok
    obtain ⟨-, -, hnone⟩ | ⟨xs', hne, -⟩ :=
      stands_step hlisted hstands (spares_turn c.state) hstep
    · by_contra hno
      exact hnone k ⟨hk, fun e he hends => hno ⟨e, he, hends⟩⟩
    · exact absurd rfl hne
  · intro c k q hk hne hdeleted
    obtain ⟨⟨xs₀, hlisted₀, -⟩, hentry, hbody, xs, -, -, hcalls⟩ := c.stands hinit hok
    obtain ⟨-, -, hsame⟩ := stands_enters hlisted₀ c.enters
    have hk' : c.entry.Registered q k := by
      rw [Processes.Registered, hsame]
      exact hk
    refine hentry.registered_run hbody c.run_body hk' ?_
    intro e he hends
    cases e with
    | called j r =>
        cases hends
        exact hne (hk.2.symm.trans (hcalls k r he).2)
    | deleted j =>
        cases hends
        exact hdeleted he
    | _ => cases hends
  · intro c front back k q hevents hdeleted
    obtain ⟨⟨xs₀, hlisted₀, -⟩, hentry, hbody, -⟩ := c.stands hinit hok
    obtain ⟨hlisted, hstands, -⟩ := stands_enters hlisted₀ c.enters
    have hrun := c.run_body
    rw [hevents] at hrun
    obtain ⟨bs, a, cs, s₁, s₂, hacts, hbs, hstep, hcs⟩ := exists_of_trace hrun
    have hinside := c.inside
    rw [hevents, List.mem_append, List.mem_cons, not_or, not_or] at hinside
    rw [hacts] at hbody
    obtain ⟨hbody₁, hbody₂⟩ := hbody.append hbs
    obtain ⟨xs₁, hlisted₁, hstands₁, -⟩ := stands_run hlisted hstands hbody₁ hbs hinside.1
    have hsteady₁ : Steady s₁ := run_invariant hkeep hentry hbody₁ hbs
    obtain ⟨hpending, hk⟩ := hsteady₁.registered_added hstep
    obtain ⟨heq, -⟩ | ⟨xs₂, -, hlisted₂, hstands₂, -⟩ :=
      stands_step hlisted₁ hstands₁ hbody₂.1 hstep
    · cases heq
    have hok₂ := hbody₂.2 (s₂, _) hstep
    obtain ⟨-, -, -, hcalls⟩ := stands_run hlisted₂ hstands₂ hok₂ hcs hinside.2.2
    refine (hsteady₁.kept hbody₂.1 hstep).registered_run hok₂ hcs hk ?_
    intro e he hends
    cases e with
    | called j r =>
        -- it was not pending, so it was not to be called
        cases hends
        have hmem := hstands₁.mem (hcalls k r he).1
        rw [(hlisted₁.pending_iff k).mpr hmem] at hpending
        cases hpending
    | deleted j =>
        cases hends
        exact hdeleted he
    | _ => cases hends
  · intro c hframe
    obtain ⟨p, tmp, hframe⟩ := hframe
    obtain ⟨-, -, -, xs, hlisted, ⟨p', hframe', hahead⟩ | ⟨n, hframe', -⟩, -⟩ :=
      c.stands hinit hok
    · obtain ⟨as, bs, rfl, rfl, -⟩ | ⟨j, rfl, -, hgt, -⟩ := hahead
      · obtain ⟨m, hm, hstop⟩ := exists_stop hlisted hframe'
        have hlength := hlisted.length_le
        rw [List.length_append] at hlength
        exact ⟨m, by omega, hstop⟩
      · exact ⟨1, by omega, _, _, run_turn (turn_gt hframe' hgt), .inl rfl⟩
    · rw [hframe] at hframe'
      cases hframe'
  · intro front rest s' events hacts hrun
    obtain ⟨xs, hlisted, -⟩ := hsteady front rest s' events hacts hrun
    exact ⟨xs, hlisted⟩
  · intro front rest s' events hacts hrun a ha
    exact (hsteady front rest s' events hacts hrun).isSome_step ha

end

/-- A run with two entries for the reaped process, in which callbacks delete an entry
the loop has passed and the one it is going to end at, and add both again. -/
theorem exitService_of_spares_busy : ExitService (initial 4 fun _ => 0)
    [.add 0 5, .add 1 5, .add 2 7, .add 3 3, .handle, .waitpid 5 256, .turn, .turn, .delete 3,
      .add 0 9, .ret, .turn, .delete 2, .add 2 8, .add 3 5, .ret, .turn, .waitpid 0 0] :=
  exitService_of_spares 4 (fun _ => 0) (by decide)

/-- The callback of entry 0 deletes entry 1, which is registered for the same
process: the loop has kept it, and calls its callback all the same. -/
theorem not_exitService_deleted : ¬ExitService (initial 2 fun _ => 0)
    [.add 0 5, .add 1 5, .handle, .waitpid 5 0, .turn, .delete 1, .ret, .turn] := by
  intro h
  have hcalled := h.called
    { first := [.add 0 5, .add 1 5, .handle], pid := 5, ret := 0
      body := [.turn, .delete 1, .ret], rest := [.turn]
      before := _, entry := _, state := _, prior := _, events := _
      acts_eq := rfl, run_first := rfl, enters := rfl, run_body := rfl, inside := by decide }
    _ 1 0 rfl
  exact hcalled.2.2.1 (.deleted 1) (by decide) rfl

end Libubox.Uloop.Process
