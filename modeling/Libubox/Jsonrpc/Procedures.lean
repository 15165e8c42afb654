import Libubox.Json.Node
import Libubox.Lib.Machine

/-!
# The procedures of a JSON-RPC server

`jrpc_register_procedure`, `jrpc_deregister_procedure` and the search of
`invoke_procedure`.  A registration goes to the end of the table and the search
starts there, but `jrpc_deregister_procedure` takes out the first entry of the
name: the table behaves like a map as long as a name that is taken out is there
once (`procedures_iff`).

Memory is granted, so that the count is a number: an array of `2 ^ 31` entries
would be asked for with a negative one.
-/

namespace Libubox.Jsonrpc

variable {φ δ : Type*}

/-! ## The source -/

/-- `struct jrpc_procedure`. -/
structure Procedure (φ δ : Type*) where
  name : Option Text
  function : φ
  data : Option δ

/-- The table of `struct jrpc_server`. -/
structure Server (φ δ : Type*) where
  procedureCount : Nat
  procedures : Option (List (Procedure φ δ))

/-- What the allocator decides: what new memory holds, and whether `realloc` of a null
pointer to no bytes gives a block. -/
structure Allocator (φ δ : Type*) where
  junk : Procedure φ δ
  emptyBlock : Bool

/-- `realloc` to `n` entries. -/
def Allocator.resize (alloc : Allocator φ δ) (ps : List (Procedure φ δ)) (n : Nat) :
    List (Procedure φ δ) :=
  ps.take n ++ List.replicate (n - ps.length) alloc.junk

/-- `jrpc_register_procedure`; none is a store outside the array. -/
def jrpcRegisterProcedure (alloc : Allocator φ δ) (server : Server φ δ) (function : φ) (name : Text)
    (data : Option δ) : Option (Int × Server φ δ) :=
  let i := server.procedureCount
  let block :=
    match server.procedures with
    | none => [alloc.junk]
    | some ps => alloc.resize ps (i + 1)
  if i < block.length then
    some (0, ⟨i + 1, some (block.set i ⟨some name, function, data⟩)⟩)
  else none

/-- `jrpc_procedure_destroy`. -/
def jrpcProcedureDestroy (p : Procedure φ δ) : Procedure φ δ := { p with name := none, data := none }

/-- The loop of `jrpc_deregister_procedure` over the last `n` entries, from `i` on. -/
def deregisterLoop (name : Text) : Nat → Nat → Bool → List (Procedure φ δ) →
    Option (Bool × List (Procedure φ δ))
  | 0, _, found, ps => some (found, ps)
  | n + 1, i, found, ps =>
      ps[i]?.bind fun p =>
        if found then deregisterLoop name n (i + 1) true (ps.set (i - 1) p)
        else
          p.name.bind fun s =>
            if name = s then deregisterLoop name n (i + 1) true (ps.set i (jrpcProcedureDestroy p))
            else deregisterLoop name n (i + 1) false ps

/-- `jrpc_deregister_procedure`. -/
def jrpcDeregisterProcedure (alloc : Allocator φ δ) (server : Server φ δ) (name : Text) :
    Option (Int × Server φ δ) :=
  match server.procedures with
  | none => some (-1, server)
  | some ps =>
      (deregisterLoop name server.procedureCount 0 false ps).map fun (found, ps) =>
        if !found then (0, { server with procedures := some ps })
        else
          let count := server.procedureCount - 1
          if count = 0 then
            if alloc.emptyBlock then (0, ⟨0, some []⟩) else (-1, ⟨0, none⟩)
          else (0, ⟨count, some (alloc.resize ps count)⟩)

/-- The loop of `invoke_procedure` over the first `i` entries, from the last one
down. -/
def findProcedure (ps : List (Procedure φ δ)) (name : Text) : Nat →
    Option (Option (Procedure φ δ))
  | 0 => some none
  | i + 1 =>
      ps[i]?.bind fun p =>
        p.name.bind fun s => if s = name then some (some p) else findProcedure ps name i

/-- The procedure that `invoke_procedure` calls; without one it answers "Method not
found." -/
def Server.lookup (server : Server φ δ) (name : Text) : Option (Option (Procedure φ δ)) :=
  findProcedure (server.procedures.getD []) name server.procedureCount

/-! ## Calls -/

/-- A call to the table. -/
inductive Call (φ δ : Type*)
  | register (function : φ) (name : Text) (data : Option δ)
  | deregister (name : Text)

def Call.name : Call φ δ → Text
  | .register _ name _ => name
  | .deregister name => name

/-- A call and what it returns. -/
def callStep (alloc : Allocator φ δ) (server : Server φ δ) : Call φ δ → Option (Server φ δ × Int)
  | .register function name data =>
      (jrpcRegisterProcedure alloc server function name data).map fun r => (r.2, r.1)
  | .deregister name => (jrpcDeregisterProcedure alloc server name).map fun r => (r.2, r.1)

/-- The server after `jrpc_server_init`. -/
def freshServer : Server φ δ := ⟨0, none⟩

/-- The most recent registration of a name that no deregistration of it follows. -/
def registered (m : Text) (calls : List (Call φ δ)) : Option (Procedure φ δ) :=
  calls.foldl (fun p call =>
    if call.name = m then
      match call with
      | .register function name data => some ⟨some name, function, data⟩
      | .deregister _ => none
    else p) none

/-- The entries of a name. -/
def Server.named (server : Server φ δ) (m : Text) : List (Procedure φ δ) :=
  (server.procedures.getD []).filter fun p => p.name = some m

/-- A name that is taken out is there once. -/
def AtMostOnce (server : Server φ δ) (call : Call φ δ) : Prop :=
  ∀ name, call = .deregister name → (server.named name).length ≤ 1

/-! ## The table -/

/-- The array holds the entries `ps`, all of them with names. -/
structure Server.Holds (server : Server φ δ) (ps : List (Procedure φ δ)) : Prop where
  count : server.procedureCount = ps.length
  array : server.procedures = some ps ∨ server.procedures = none ∧ ps = []
  names : ∀ p ∈ ps, p.name ≠ none

variable {alloc : Allocator φ δ} {server : Server φ δ} {ps qs : List (Procedure φ δ)}
  {p : Procedure φ δ} {m name : Text}

theorem Server.Holds.getD (h : server.Holds ps) : server.procedures.getD [] = ps := by
  rcases h.array with harray | ⟨harray, rfl⟩ <;> rw [harray] <;> rfl

theorem Server.Holds.named (h : server.Holds ps) :
    server.named m = ps.filter fun p => p.name = some m := by
  rw [Server.named, h.getD]

theorem register_spec (h : server.Holds ps) (function : φ) (data : Option δ) :
    ∃ server', jrpcRegisterProcedure alloc server function name data = some (0, server') ∧
      server'.Holds (ps ++ [⟨some name, function, data⟩]) := by
  have hnames : ∀ p ∈ ps ++ [⟨some name, function, data⟩], p.name ≠ none := by
    intro p hp
    rcases List.mem_append.mp hp with hp | hp
    · exact h.names p hp
    · rw [List.mem_singleton.mp hp]
      simp
  rcases h.array with harray | ⟨harray, rfl⟩
  · have hblock : (alloc.resize ps (ps.length + 1)) = ps ++ [alloc.junk] := by
      simp [Allocator.resize]
    refine ⟨⟨ps.length + 1, some (ps ++ [⟨some name, function, data⟩])⟩, ?_, ?_⟩
    · simp [jrpcRegisterProcedure, harray, h.count, hblock]
    · exact ⟨by simp, .inl rfl, hnames⟩
  · refine ⟨⟨1, some [⟨some name, function, data⟩]⟩, ?_, ?_⟩
    · simp [jrpcRegisterProcedure, harray, h.count]
    · exact ⟨rfl, .inl rfl, hnames⟩

/-- The loop behind the entry that was found moves the others down. -/
theorem deregisterLoop_found (name : Text) (p : Procedure φ δ) (ps qs : List (Procedure φ δ)) :
    ∃ q, deregisterLoop name qs.length (ps.length + 1) true (ps ++ p :: qs)
      = some (true, ps ++ qs ++ [q]) := by
  induction qs generalizing p ps with
  | nil => exact ⟨p, by simp [deregisterLoop]⟩
  | cons q qs ih =>
      obtain ⟨r, hr⟩ := ih q (ps ++ [q])
      refine ⟨r, ?_⟩
      have hget : (ps ++ p :: q :: qs)[ps.length + 1]? = some q := by simp
      have hset : (ps ++ p :: q :: qs).set ps.length q = ps ++ q :: q :: qs := by simp
      rw [List.length_cons, deregisterLoop, hget, Option.bind_some, if_pos rfl, Nat.add_sub_cancel,
        hset]
      simpa using hr

/-- The loop takes out the first entry of the name. -/
theorem deregisterLoop_spec (hnames : ∀ p ∈ qs, p.name ≠ none) :
    (∀ p ∈ qs, p.name ≠ some name) ∧
      deregisterLoop name qs.length ps.length false (ps ++ qs) = some (false, ps ++ qs) ∨
    ∃ as p bs q, qs = as ++ p :: bs ∧ (∀ a ∈ as, a.name ≠ some name) ∧ p.name = some name ∧
      deregisterLoop name qs.length ps.length false (ps ++ qs)
        = some (true, ps ++ (as ++ bs) ++ [q]) := by
  induction qs generalizing ps with
  | nil => exact .inl ⟨by simp, rfl⟩
  | cons p qs ih =>
      obtain ⟨s, hs⟩ := Option.ne_none_iff_exists'.mp (hnames p List.mem_cons_self)
      have hget : (ps ++ p :: qs)[ps.length]? = some p := by simp
      rw [List.length_cons, deregisterLoop, hget, Option.bind_some, if_neg (by simp), hs,
        Option.bind_some]
      by_cases hname : name = s
      · right
        obtain ⟨q, hq⟩ := deregisterLoop_found name (jrpcProcedureDestroy p) ps qs
        refine ⟨[], p, qs, q, rfl, by simp, by rw [hs, hname], ?_⟩
        rw [if_pos hname]
        simpa using hq
      · rw [if_neg hname]
        have happend : ps ++ p :: qs = (ps ++ [p]) ++ qs := by simp
        have hlength : ps.length + 1 = (ps ++ [p]).length := by simp
        rw [happend, hlength]
        have hne : p.name ≠ some name := by
          rw [hs]
          intro heq
          exact hname (Option.some.inj heq).symm
        rcases ih fun p hp => hnames p (List.mem_cons_of_mem _ hp) with
          ⟨hnone, hloop⟩ | ⟨as, r, bs, q, rfl, has, hr, hloop⟩
        · refine .inl ⟨?_, hloop⟩
          intro r hr
          rcases List.mem_cons.mp hr with rfl | hr
          · exact hne
          · exact hnone r hr
        · refine .inr ⟨p :: as, r, bs, q, rfl, ?_, hr, ?_⟩
          · intro a ha
            rcases List.mem_cons.mp ha with rfl | ha
            · exact hne
            · exact has a ha
          · rw [hloop]
            simp

/-- **`jrpc_deregister_procedure`** takes the first entry of a name out of the
table. -/
theorem deregister_spec (h : server.Holds ps) :
    (∀ p ∈ ps, p.name ≠ some name) ∧
      (∃ code, jrpcDeregisterProcedure alloc server name = some (code, server)) ∨
    ∃ as p bs code server', ps = as ++ p :: bs ∧ (∀ a ∈ as, a.name ≠ some name) ∧
      p.name = some name ∧
      jrpcDeregisterProcedure alloc server name = some (code, server') ∧
      server'.Holds (as ++ bs) := by
  rcases h.array with harray | ⟨harray, rfl⟩
  · have hloop := @deregisterLoop_spec _ _ [] ps name h.names
    rw [List.nil_append, List.length_nil] at hloop
    rcases hloop with ⟨hnone, hloop⟩ | ⟨as, p, bs, q, rfl, has, hp, hloop⟩
    · refine .inl ⟨hnone, 0, ?_⟩
      rw [jrpcDeregisterProcedure, harray]
      simp only [h.count, hloop, Option.map_some, Bool.not_false, if_true]
      rw [← h.count, ← harray]
    · right
      have hnames : ∀ p ∈ as ++ bs, p.name ≠ none := by
        intro p hp
        apply h.names p
        rcases List.mem_append.mp hp with hp | hp
        · exact List.mem_append_left _ hp
        · exact List.mem_append_right _ (List.mem_cons_of_mem _ hp)
      have hcount : server.procedureCount - 1 = (as ++ bs).length := by
        rw [h.count]
        simp
      have hderegister : jrpcDeregisterProcedure alloc server name
          = some (if (as ++ bs).length = 0 then
              if alloc.emptyBlock then (0, ⟨0, some []⟩) else (-1, ⟨0, none⟩)
            else (0, ⟨(as ++ bs).length, some (as ++ bs)⟩)) := by
        have hresize : alloc.resize (as ++ bs ++ [q]) (as ++ bs).length = as ++ bs := by
          rw [Allocator.resize, List.take_left]
          simp
        rw [List.nil_append] at hloop
        rw [jrpcDeregisterProcedure, harray]
        simp only [h.count, hloop, Option.map_some]
        rw [← h.count, hcount, hresize]
        rfl
      by_cases hzero : (as ++ bs).length = 0
      · have hnil : as ++ bs = [] := List.length_eq_zero_iff.mp hzero
        rw [if_pos hzero] at hderegister
        cases hblock : alloc.emptyBlock with
        | true =>
            refine ⟨as, p, bs, 0, ⟨0, some []⟩, rfl, has, hp, ?_, hzero.symm, .inl ?_, hnames⟩
            · rw [hderegister, hblock]
              rfl
            · rw [hnil]
        | false =>
            refine ⟨as, p, bs, -1, ⟨0, none⟩, rfl, has, hp, ?_, hzero.symm, .inr ⟨rfl, hnil⟩, hnames⟩
            rw [hderegister, hblock]
            rfl
      · rw [if_neg hzero] at hderegister
        exact ⟨as, p, bs, 0, _, rfl, has, hp, hderegister, rfl, .inl rfl, hnames⟩
  · refine .inl ⟨by simp, -1, ?_⟩
    rw [jrpcDeregisterProcedure, harray]

/-- The search finds the last entry of the name. -/
theorem findProcedure_spec (hnames : ∀ p ∈ ps, p.name ≠ none) :
    findProcedure (ps ++ qs) m ps.length
      = some (ps.filter fun p => p.name = some m).getLast? := by
  induction ps using List.reverseRecOn generalizing qs with
  | nil => rfl
  | append_singleton ps p ih =>
      obtain ⟨s, hs⟩ := Option.ne_none_iff_exists'.mp
        (hnames p (List.mem_append_right _ List.mem_cons_self))
      have hget : (ps ++ [p] ++ qs)[ps.length]? = some p := by simp
      rw [List.length_append, List.length_singleton, findProcedure, hget, Option.bind_some, hs,
        Option.bind_some, List.filter_append]
      by_cases hname : s = m
      · rw [if_pos hname, List.filter_singleton, hs, hname]
        simp
      · rw [if_neg hname, List.append_assoc, ih fun p hp => hnames p (List.mem_append_left _ hp),
          List.filter_singleton, hs]
        simp [hname]

theorem lookup_spec (h : server.Holds ps) :
    server.lookup m = some (server.named m).getLast? := by
  have hfind := @findProcedure_spec _ _ ps [] m h.names
  rw [List.append_nil] at hfind
  rw [Server.lookup, h.getD, h.count, hfind, h.named]

/-! ## One call -/

/-- A call leaves the entries of other names.  Afterwards its name is registered
anew, or has lost its first entry. -/
theorem callStep_spec (h : server.Holds ps) (call : Call φ δ) :
    ∃ server' code ps', callStep alloc server call = some (server', code) ∧ server'.Holds ps' ∧
      (∀ m, m ≠ call.name → server'.named m = server.named m) ∧
      match call with
      | .register function name data =>
          server'.named name = server.named name ++ [⟨some name, function, data⟩]
      | .deregister name => server'.named name = (server.named name).tail := by
  cases call with
  | register function name data =>
      obtain ⟨server', hregister, hholds⟩ :=
        @register_spec _ _ alloc _ _ name h function data
      refine ⟨server', 0, _, by rw [callStep, hregister]; rfl, hholds, ?_, ?_⟩
      · intro m hm
        have hne : name ≠ m := fun heq => hm heq.symm
        rw [hholds.named, h.named, List.filter_append]
        simp [hne]
      · change server'.named name = server.named name ++ [⟨some name, function, data⟩]
        rw [hholds.named, h.named, List.filter_append]
        simp
  | deregister name =>
      rcases @deregister_spec _ _ alloc _ _ name h with
        ⟨hnone, code, hderegister⟩ | ⟨as, p, bs, code, server', rfl, has, hp, hderegister, hholds⟩
      · refine ⟨server, code, ps, by rw [callStep, hderegister]; rfl, h, fun m _ => rfl, ?_⟩
        have hnil : server.named name = [] := by
          rw [h.named, List.filter_eq_nil_iff]
          intro p hp
          simpa using hnone p hp
        change server.named name = (server.named name).tail
        rw [hnil]
        rfl
      · refine ⟨server', code, as ++ bs, by rw [callStep, hderegister]; rfl, hholds, ?_, ?_⟩
        · intro m hm
          have hne : ¬p.name = some m := by
            rw [hp]
            exact fun heq => hm (Option.some.inj heq).symm
          rw [hholds.named, h.named, List.filter_append, List.filter_append, List.filter_cons]
          simp [hne]
        · have hnil : as.filter (fun p => p.name = some name) = [] := by
            rw [List.filter_eq_nil_iff]
            intro a ha
            simpa using has a ha
          change server'.named name = (server.named name).tail
          rw [hholds.named, h.named, List.filter_append, List.filter_append, hnil,
            List.filter_cons]
          simp [hp]

/-! ## Runs -/

/-- The table answers like a map after the calls `past`. -/
def Agrees (server : Server φ δ) (past : List (Call φ δ)) : Prop :=
  ∀ m, server.lookup m = some (registered m past)

theorem registered_append (m : Text) (past : List (Call φ δ)) (call : Call φ δ) :
    registered m (past ++ [call]) = if call.name = m then
      match call with
      | .register function name data => some ⟨some name, function, data⟩
      | .deregister _ => none
      else registered m past := by
  simp only [registered, List.foldl_append, List.foldl_cons, List.foldl_nil]

/-- A call keeps the table a map exactly when the name it takes out is there once. -/
theorem agrees_iff {server' : Server φ δ} {code : Int} {past : List (Call φ δ)} {call : Call φ δ}
    (h : server.Holds ps) (hagrees : Agrees server past)
    (hstep : callStep alloc server call = some (server', code)) :
    Agrees server' (past ++ [call]) ↔ AtMostOnce server call := by
  obtain ⟨server₁, code₁, ps', hstep₁, hholds, hother, hown⟩ := @callStep_spec _ _ alloc _ _ h call
  cases hstep₁.symm.trans hstep
  have hothers : ∀ m, m ≠ call.name → server'.lookup m = some (registered m (past ++ [call])) := by
    intro m hm
    rw [lookup_spec hholds, hother m hm, ← lookup_spec h, hagrees m, registered_append,
      if_neg (Ne.symm hm)]
  have honly : Agrees server' (past ++ [call]) ↔
      server'.lookup call.name = some (registered call.name (past ++ [call])) := by
    constructor
    · exact fun hall => hall call.name
    · intro hname m
      by_cases hm : m = call.name
      · rw [hm]
        exact hname
      · exact hothers m hm
  rw [honly, lookup_spec hholds, registered_append, if_pos rfl]
  cases call with
  | register function name data =>
      refine iff_of_true ?_ (fun name' hname => by cases hname)
      simp only [Call.name] at hown ⊢
      rw [hown, List.getLast?_append]
      rfl
  | deregister name =>
      simp only [Call.name] at hown ⊢
      rw [hown, Option.some.injEq, List.getLast?_eq_none_iff]
      constructor
      · intro hnil name' hname
        cases hname
        cases hnamed : server.named name with
        | nil => simp
        | cons p qs =>
            rw [hnamed, List.tail_cons] at hnil
            rw [hnil]
            simp
      · intro honce
        have hle := honce name rfl
        rw [← List.length_eq_zero_iff, List.length_tail]
        omega

theorem runs_iff {past : List (Call φ δ)} (h : server.Holds ps) (hagrees : Agrees server past)
    (calls : List (Call φ δ)) :
    (∀ front, front <+: calls → ∃ server' codes,
      Machine.run (callStep alloc) server front = some (server', codes) ∧
        Agrees server' (past ++ front)) ↔
      Machine.Along (callStep alloc) AtMostOnce server calls := by
  induction calls generalizing server ps past with
  | nil =>
      refine iff_of_true ?_ trivial
      intro front hfront
      obtain rfl := List.prefix_nil.mp hfront
      exact ⟨server, [], rfl, by simpa using hagrees⟩
  | cons call calls ih =>
      obtain ⟨server₁, code, ps₁, hstep, hholds, -⟩ := @callStep_spec _ _ alloc _ _ h call
      constructor
      · intro hall
        obtain ⟨server', codes, hrun, hone⟩ := hall [call] (by simp)
        obtain ⟨server₂, code₂, rest, hstep₂, hrest, -⟩ := Machine.run_cons_eq_some.mp hrun
        cases hstep.symm.trans hstep₂
        cases hrest
        refine ⟨(agrees_iff h hagrees hstep).mp hone, ?_⟩
        intro r hr
        cases hstep.symm.trans hr
        refine (ih hholds hone).mp ?_
        intro front hfront
        obtain ⟨server', codes, hrun, hfine⟩ := hall (call :: front)
          (List.cons_prefix_cons.mpr ⟨rfl, hfront⟩)
        obtain ⟨server₂, code₂, rest, hstep₂, hrest, -⟩ := Machine.run_cons_eq_some.mp hrun
        cases hstep.symm.trans hstep₂
        refine ⟨server', rest, hrest, ?_⟩
        simpa using hfine
      · rintro ⟨hok, halong⟩ front hfront
        have hone := (agrees_iff h hagrees hstep).mpr hok
        cases front with
        | nil => exact ⟨server, [], rfl, by simpa using hagrees⟩
        | cons call' front =>
            obtain ⟨rfl, hrest⟩ := List.cons_prefix_cons.mp hfront
            obtain ⟨server', codes, hrun, hfine⟩ :=
              (ih hholds hone).mpr (halong (server₁, code) hstep) front hrest
            refine ⟨server', code :: codes,
              Machine.run_cons_eq_some.mpr ⟨server₁, code, codes, hstep, hrun, rfl⟩, ?_⟩
            simpa using hfine

theorem freshServer_holds : (freshServer : Server φ δ).Holds [] :=
  ⟨rfl, .inr ⟨rfl, rfl⟩, by simp⟩

/-- **The table of procedures** answers every request with the most recent
registration that was not taken out, in every state of a run, exactly when every name
that is taken out is there once.  Calls for one name leave the entries of the others
in any case. -/
theorem procedures_iff (alloc : Allocator φ δ) (calls : List (Call φ δ)) :
    ((∀ front, front <+: calls → ∃ server codes,
        Machine.run (callStep alloc) freshServer front = some (server, codes) ∧
          ∀ m, server.lookup m = some (registered m front)) ↔
      Machine.Along (callStep alloc) AtMostOnce freshServer calls) ∧
    ∀ front call, front ++ [call] <+: calls → ∃ server codes server' code,
      Machine.run (callStep alloc) freshServer front = some (server, codes) ∧
        callStep alloc server call = some (server', code) ∧
        ∀ m, m ≠ call.name → server'.named m = server.named m := by
  constructor
  · exact @runs_iff _ _ alloc _ _ [] freshServer_holds (fun m => rfl) calls
  · intro front call _
    obtain ⟨server, codes, hrun, ps, hs⟩ := @Machine.exists_run _ _ _ (callStep alloc)
      (fun _ _ => True) (fun s _ => ∃ ps, s.Holds ps)
      (fun s past call hs _ => by
        obtain ⟨ps, hs⟩ := hs
        obtain ⟨s', code, ps', hstep, hholds, -⟩ := @callStep_spec _ _ alloc _ _ hs call
        exact ⟨s', code, hstep, ps', hholds⟩)
      freshServer [] front ⟨[], freshServer_holds⟩ (Machine.along_true freshServer front)
    obtain ⟨server', code, ps', hstep, -, hother, -⟩ := @callStep_spec _ _ alloc _ _ hs call
    exact ⟨server, codes, server', code, hrun, hstep, hother⟩

/-- A name registered twice and taken out once is still called. -/
theorem deregister_keeps_newer :
    ∃ (server : Server Nat Nat) (codes : List Int),
      Machine.run (callStep ⟨⟨none, 0, none⟩, true⟩) freshServer
        [.register 1 [102] none, .register 2 [102] none, .deregister [102]]
        = some (server, codes) ∧
      server.lookup [102] = some (some ⟨some [102], 2, none⟩) ∧
      registered [102] [Call.register 1 [102] none, .register 2 [102] none, .deregister [102]]
        = (none : Option (Procedure Nat Nat)) :=
  ⟨⟨1, some [⟨some [102], 2, none⟩]⟩, [0, 0, 0], rfl, rfl, rfl⟩

end Libubox.Jsonrpc
