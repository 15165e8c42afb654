import Libubox.Kv.Kvlist

/-!
# Key-value lists are maps

A `struct kvlist` stands for a map from names to values (`Models`), and the functions do to
it what they do to the map.  A run from `kvlist_init` on gives the answers of the map
(`kvlist_run`), `kvlist_for_each` visits its names in order, and `kvlist_free` gives
everything back that was allocated (`kvlistFree_run`).
-/

namespace Libubox.Kv

open Avl Blob Circles Vlist

variable {ν : Type}

/-! ## The map of a list -/

/-- What a list stands for. -/
abbrev Map : Type := CString → Option Mem

/-- The list has the nodes `xs`, which stand for `m`.  The nodes `others` are not its own. -/
structure Models (kv : Kvlist ν) (xs : List ν) (others : ν → Bool) (m : Map) : Prop where
  has : Has avlStrcmp kv.avl xs
  live : ∀ y, kv.live y = true ↔ others y = true ∨ y ∈ xs
  apart : ∀ y ∈ xs, others y = false
  value : ∀ name d, m name = some d ↔ ∃ y ∈ xs, kv.avl.key y = name ∧ kv.data y = d

section Operations

variable {getLen : Mem → Option Nat} {fuel : Nat} {kv : Kvlist ν} {xs : List ν}
  {others : ν → Bool} {m : Map}

/-- The names are in order, without repetitions. -/
theorem Models.sorted (h : Models kv xs others m) :
    xs.Pairwise fun x y => avlStrcmp (kv.avl.key x) (kv.avl.key y) < 0 := by
  obtain ⟨gs, born, hsound, rfl⟩ := h.has.sound
  have hsingle : members gs = gs.map Prod.fst := by
    have hnone := hsound.unique h.has.single
    rw [members, List.map_eq_flatMap]
    apply List.flatMap_congr
    intro p hp
    rw [hnone p hp]
  rw [hsingle]
  exact List.pairwise_map.mpr hsound.ordered

theorem Models.live_mem (h : Models kv xs others m) {y : ν} (hy : y ∈ xs) : kv.live y = true :=
  (h.live y).mpr (.inr hy)

theorem Models.value_self (h : Models kv xs others m) {y : ν} (hy : y ∈ xs) :
    m (kv.avl.key y) = some (kv.data y) := (h.value _ _).mpr ⟨y, hy, rfl, rfl⟩

/-- The node of a name. -/
theorem kvlistFind_spec (h : Models kv xs others m) (hfuel : xs.length < fuel) (name : CString) :
    (kvlistFind fuel kv name = some none ∧ m name = none) ∨
      ∃ y ∈ xs, kvlistFind fuel kv name = some (some y) ∧ kv.avl.key y = name ∧
        m name = some (kv.data y) := by
  rcases h.has.find avlStrcmp_preorder hfuel name with ⟨hfind, hnone⟩ | ⟨y, hy, hfind, hzero⟩
  · refine .inl ⟨hfind, Option.eq_none_iff_forall_ne_some.mpr fun d hd => ?_⟩
    obtain ⟨y, hy, hkey, -⟩ := (h.value name d).mp hd
    exact hnone y hy (avlStrcmp_eq_zero.mpr hkey.symm)
  · have hkey := (avlStrcmp_eq_zero.mp hzero).symm
    exact .inr ⟨y, hy, hfind, hkey, hkey ▸ h.value_self hy⟩

/-- **`kvlist_get`** looks the name up. -/
theorem kvlistGet_spec (h : Models kv xs others m) (hfuel : xs.length < fuel) (name : CString) :
    kvlistGet fuel kv name = some (m name) := by
  rcases kvlistFind_spec h hfuel name with ⟨hfind, hnone⟩ | ⟨y, -, hfind, -, hvalue⟩
  · rw [kvlistGet, hfind, hnone]
    rfl
  · rw [kvlistGet, hfind, hvalue]
    rfl

variable [DecidableEq ν]

/-- **`kvlist_delete`** takes the name out, and tells whether it was there. -/
theorem kvlistDelete_spec (h : Models kv xs others m) (hfuel : xs.length + 2 < fuel)
    (name : CString) :
    ∃ kv' xs', kvlistDelete fuel kv name = some ((m name).isSome, kv') ∧
      Models kv' xs' others (Function.update m name none) ∧
      kv'.avl.listHead = kv.avl.listHead ∧ xs'.length ≤ xs.length ∧
      (∀ y ∈ xs', kv'.avl.key y ≠ name) ∧ ∀ y, kv'.live y = true → kv.live y = true := by
  rcases kvlistFind_spec h (by omega : xs.length < fuel) name with
    ⟨hfind, hnone⟩ | ⟨x, hx, hfind, hkey, hvalue⟩
  · refine ⟨kv, xs, ?_, ?_, rfl, le_rfl, fun y hy hname => ?_, fun y hy => hy⟩
    · rw [kvlistDelete, hfind, hnone]
      rfl
    · rw [← hnone, Function.update_eq_self]
      exact h
    · rw [← hname, h.value_self hy] at hnone
      cases hnone
  · obtain ⟨avl, hdelete, hhas, hsame⟩ := h.has.delete avlStrcmp_preorder hx hfuel
    have hnodup := (List.nodup_cons.mp h.has.nodup).2
    have hmem : ∀ y, y ∈ xs.erase x ↔ y ≠ x ∧ y ∈ xs := fun y => hnodup.mem_erase_iff
    have hother : ∀ y ∈ xs.erase x, avl.key y ≠ name := by
      intro y hy hname
      obtain ⟨hne, hyxs⟩ := (hmem y).mp hy
      rw [hsame.1, ← hkey] at hname
      exact hne (h.has.key_inj avlStrcmp_preorder hyxs hx (avlStrcmp_eq_zero.mpr hname))
    have hlive : kv.live x = true := h.live_mem hx
    refine ⟨{ kv with avl := avl, live := Function.update kv.live x false }, xs.erase x, ?_,
      ⟨hhas, fun y => ?_, fun y hy => h.apart y ((hmem y).mp hy).2, fun other d => ?_⟩, hsame.2.1,
      List.length_erase_le, hother, fun y hy => ?_⟩
    · rw [kvlistDelete, hfind, hvalue, Option.bind_some]
      show (kv.avl.avlDelete fuel x).bind _ = _
      rw [hdelete, Option.bind_some, Kvlist.free]
      show (if kv.live x then some { kv with avl := avl, live := _ } else none).map _ = _
      rw [if_pos hlive]
      rfl
    · show Function.update kv.live x false y = true ↔ _
      by_cases hyx : y = x
      · rw [hyx, Function.update_self, h.apart x hx]
        simp [hnodup.mem_erase_iff]
      · rw [Function.update_of_ne hyx, h.live y, hmem y]
        simp [hyx]
    · show Function.update m name none other = some d ↔ ∃ y ∈ xs.erase x, avl.key y = other ∧ _
      by_cases hname : other = name
      · subst hname
        rw [Function.update_self]
        exact iff_of_false nofun fun ⟨y, hy, hyname, _⟩ => hother y hy hyname
      · rw [Function.update_of_ne hname, h.value other d, hsame.1]
        constructor
        · rintro ⟨y, hy, hyother, hyd⟩
          refine ⟨y, (hmem y).mpr ⟨fun heq => hname ?_, hy⟩, hyother, hyd⟩
          rw [← hyother, heq, hkey]
        · rintro ⟨y, hy, hyother, hyd⟩
          exact ⟨y, ((hmem y).mp hy).2, hyother, hyd⟩
    · have hy' : Function.update kv.live x false y = true := hy
      by_cases hyx : y = x
      · rw [hyx]
        exact hlive
      · rwa [Function.update_of_ne hyx] at hy'

/-- **`kvlist_set`** gives the name its new value. -/
theorem kvlistSet_spec (h : Models kv xs others m) (hfuel : xs.length + 2 < fuel)
    (name : CString) {node : ν} {data : Mem} {len : Nat} (hlive : kv.live node = false)
    (hhead : node ≠ kv.avl.listHead) (hlen : getLen data = some len) (hle : len ≤ data.length)
    (hsize : nodeSize + len + (name.1.length + 1) < 2 ^ 31) :
    ∃ kv' xs', kvlistSet getLen fuel kv name node data = some kv' ∧
      Models kv' xs' others (Function.update m name (some (data.take len))) ∧
      kv'.avl.listHead = kv.avl.listHead ∧ xs'.length ≤ xs.length + 1 := by
  obtain ⟨kv₁, xs₁, hdelete, h₁, hhead₁, hlength, hother, hlive₁⟩ := kvlistDelete_spec h hfuel name
  have hnot : node ∉ xs₁ := by
    intro hmem
    rw [hlive₁ node (h₁.live_mem hmem)] at hlive
    cases hlive
  have hothers : others node = false := by
    by_contra hown
    have := (h₁.live node).mpr (.inl (by simpa using hown))
    rw [hlive₁ node this] at hlive
    cases hlive
  have hkeys : ∀ y ∈ xs₁, (kv₁.avl.setKey node name).key y = kv₁.avl.key y := by
    intro y hy
    have hne : y ≠ node := fun heq => hnot (heq ▸ hy)
    exact Function.update_of_ne hne ..
  have hkey : (kv₁.avl.setKey node name).key node = name := Function.update_self ..
  obtain ⟨avl, xs', hinsert, hhas, hperm, hsame⟩ := (h₁.has.setKey hnot).insert avlStrcmp_preorder
    (by
      rw [List.mem_cons, not_or]
      exact ⟨fun heq => hhead (heq.trans hhead₁), hnot⟩)
    (fun y hy hzero => by
      rw [hkey, hkeys y hy] at hzero
      exact hother y hy (avlStrcmp_eq_zero.mp hzero).symm)
    (by omega : xs₁.length + 2 < fuel)
  have hmem : ∀ y, y ∈ xs' ↔ y = node ∨ y ∈ xs₁ := fun y => hperm.mem_iff.trans List.mem_cons
  refine ⟨⟨avl, Function.update kv₁.data node (data.take len), Function.update kv₁.live node true⟩,
    xs', ?_, ⟨hhas, fun y => ?_, fun y hy => ?_, fun other d => ?_⟩, hsame.2.1.trans hhead₁, ?_⟩
  · rw [kvlistSet, hlen, Option.bind_some, hdelete, Option.bind_some, if_pos ⟨hsize, hle⟩]
    show ((kv₁.avl.setKey node name).avlInsert avlStrcmp fuel node).map _ = _
    rw [hinsert]
    rfl
  · show Function.update kv₁.live node true y = true ↔ _
    by_cases hyn : y = node
    · rw [hyn, Function.update_self]
      exact iff_of_true rfl (.inr ((hmem node).mpr (.inl rfl)))
    · rw [Function.update_of_ne hyn, h₁.live y, hmem y]
      simp [hyn]
  · rcases (hmem y).mp hy with rfl | hy
    · exact hothers
    · exact h₁.apart y hy
  · show _ ↔ ∃ y ∈ xs', avl.key y = other ∧ Function.update kv₁.data node (data.take len) y = d
    rw [hsame.1]
    have hdata : ∀ y ∈ xs₁, Function.update kv₁.data node (data.take len) y = kv₁.data y := by
      intro y hy
      have hne : y ≠ node := fun heq => hnot (heq ▸ hy)
      exact Function.update_of_ne hne ..
    by_cases hname : other = name
    · subst hname
      rw [Function.update_self]
      constructor
      · rintro hd
        refine ⟨node, (hmem node).mpr (.inl rfl), hkey, ?_⟩
        rw [Function.update_self]
        exact Option.some.inj hd
      · rintro ⟨y, hy, hyname, hyd⟩
        rcases (hmem y).mp hy with rfl | hy
        · rw [← hyd, Function.update_self]
        · rw [hkeys y hy] at hyname
          exact absurd hyname (hother y hy)
    · have hrest := h₁.value other d
      rw [Function.update_of_ne hname] at hrest
      rw [Function.update_of_ne hname, hrest]
      constructor
      · rintro ⟨y, hy, hyother, hyd⟩
        exact ⟨y, (hmem y).mpr (.inr hy), (hkeys y hy).trans hyother, (hdata y hy).trans hyd⟩
      · rintro ⟨y, hy, hyother, hyd⟩
        rcases (hmem y).mp hy with rfl | hy
        · exact absurd (hyother.symm.trans hkey) hname
        · exact ⟨y, hy, (hkeys y hy).symm.trans hyother, (hdata y hy).symm.trans hyd⟩
  · rw [hperm.length_eq, List.length_cons]
    omega

/-! ## Freeing and visiting all nodes -/

omit [DecidableEq ν] in
/-- Each node leads to the one behind it, also when the pointers of the head change. -/
theorem next_chain {l l' : Links ν} {h : ν} (hcirc : Circle l h xs)
    (hsame : ∀ y ∈ xs, l'.next y = l.next y) :
    (xs ++ [h]).IsChain fun a b => l'.next a = some b := by
  obtain ⟨hxs, hlast, hmeet⟩ := List.isChain_append.mp (List.isChain_cons.mp hcirc).2
  refine List.isChain_append.mpr ⟨?_, .singleton h, fun a ha b hb => ?_⟩
  · exact hxs.imp_of_mem_imp fun a b ha _ hab => (hsame a ha).trans hab.1
  · exact (hsame a (List.mem_of_getLast? ha)).trans (hmeet a ha b hb).1

/-- The loop of `kvlist_free`, in front of the nodes `rest`. -/
theorem freeLoop_spec {rest : List ν} {n : Nat} {node tmp : ν}
    (hchain : (rest ++ [kv.avl.listHead]).IsChain fun a b => kv.avl.list.next a = some b)
    (hhead : kv.avl.list.next kv.avl.listHead = some kv.avl.listHead) (hnodup : rest.Nodup)
    (hlive : ∀ y ∈ rest, kv.live y = true) (hcount : kv.avl.count = rest.length)
    (hnode : (rest ++ [kv.avl.listHead]).head? = some node)
    (htmp : rest ≠ [] → kv.avl.list.next node = some tmp) (hn : rest.length < n) :
    freeLoop n kv node tmp = some { kv with
      avl := { kv.avl with count := 0 }
      live := fun y => kv.live y && decide (y ∉ rest) } := by
  induction rest generalizing kv n node tmp with
  | nil =>
      obtain ⟨n, rfl⟩ := Nat.exists_eq_succ_of_ne_zero (Nat.ne_of_gt hn)
      have hzero : kv.avl.count = 0 := hcount
      rw [freeLoop, if_neg (by omega), ← hzero]
      simp
  | cons y rest ih =>
      obtain ⟨n, rfl⟩ := Nat.exists_eq_succ_of_ne_zero (Nat.ne_of_gt (Nat.zero_lt_of_lt hn))
      cases hnode
      obtain ⟨hy, hnodup⟩ := List.nodup_cons.mp hnodup
      obtain ⟨hfirst, hchain⟩ := List.isChain_cons.mp hchain
      rw [List.length_cons] at hcount hn
      have hliveY : kv.live y = true := hlive y List.mem_cons_self
      have hlive' : ∀ z ∈ rest, Function.update kv.live y false z = true := by
        intro z hz
        have hne : z ≠ y := fun heq => hy (heq ▸ hz)
        rw [Function.update_of_ne hne]
        exact hlive z (List.mem_cons_of_mem y hz)
      -- the node behind is not the one that is freed
      obtain ⟨next, hnext, hbehind⟩ : ∃ next, kv.avl.list.next tmp = some next ∧
          (tmp = kv.avl.listHead ∨ Function.update kv.live y false tmp = true) ∧
          (rest ++ [kv.avl.listHead]).head? = some tmp := by
        have hstep := htmp (List.cons_ne_nil y rest)
        cases rest with
        | nil =>
            have hlast : tmp = kv.avl.listHead := by
              rw [hfirst _ rfl] at hstep
              exact (Option.some.inj hstep).symm
            subst hlast
            exact ⟨_, hhead, .inl rfl, rfl⟩
        | cons z rest =>
            have hz : tmp = z := by
              rw [hfirst z rfl] at hstep
              exact (Option.some.inj hstep).symm
            subst hz
            obtain ⟨hstep', -⟩ := List.isChain_cons.mp hchain
            obtain ⟨w, hw⟩ : ∃ w, (rest ++ [kv.avl.listHead]).head? = some w := by
              cases rest <;> exact ⟨_, rfl⟩
            exact ⟨w, hstep' w hw, .inr (hlive' _ List.mem_cons_self), rfl⟩
      have hrest := @ih { kv with
          avl := { kv.avl with count := kv.avl.count - 1 }
          live := Function.update kv.live y false } n tmp next hchain hhead hnodup hlive'
        (by show kv.avl.count - 1 = _; omega) hbehind.2 (fun _ => hnext) (by omega)
      rw [freeLoop, if_pos (by omega), Kvlist.free, if_pos hliveY, Option.bind_some,
        Kvlist.nextElement, if_pos hbehind.1, hnext, Option.bind_some, hrest]
      congr 2
      funext z
      by_cases hzy : z = y
      · simp [hzy]
      · simp [hzy]

/-- **`kvlist_free`** frees the nodes of the list, and nothing else. -/
theorem kvlistFree_spec (h : Models kv xs others m) (hfuel : xs.length < fuel)
    (hcount : xs.length < 2 ^ 32) :
    ∃ kv', kvlistFree fuel kv = some kv' ∧ Models kv' [] others (fun _ => none) ∧
      kv'.avl.listHead = kv.avl.listHead ∧ kv'.live = others := by
  obtain ⟨hhead, hnodup⟩ := List.nodup_cons.mp h.has.nodup
  have hcirc := h.has.circle
  obtain ⟨node, hfirst⟩ : ∃ node, (xs ++ [kv.avl.listHead]).head? = some node := by
    cases xs <;> exact ⟨_, rfl⟩
  have hmem : node ∈ kv.avl.listHead :: xs := by
    have := List.mem_of_head? hfirst
    simpa [or_comm] using this
  obtain ⟨tmp, htmp⟩ := hcirc.exists_next hmem
  have hknown : node = kv.avl.listHead ∨ kv.live node = true :=
    (List.mem_cons.mp hmem).imp_right h.live_mem
  have hlength : kv.avl.count = xs.length := by
    obtain ⟨gs, born, hsound, rfl⟩ := h.has.sound
    rw [hsound.count, Nat.mod_eq_of_lt hcount]
  -- the pointers of the nodes are not changed
  have hsame : ∀ y ∈ xs, (kv.avl.list.initHead kv.avl.listHead).next y = kv.avl.list.next y := by
    intro y hy
    have hne : y ≠ kv.avl.listHead := fun heq => hhead (heq ▸ hy)
    exact Function.update_of_ne hne ..
  have hloop := @freeLoop_spec _ { kv with
      avl := { kv.avl with list := kv.avl.list.initHead kv.avl.listHead, root := none } } _ xs fuel
    node tmp (next_chain hcirc hsame) (Function.update_self ..) hnodup (fun y hy => h.live_mem hy)
    hlength hfirst (fun hne => ?_) hfuel
  · have hlive : (fun y => kv.live y && decide (y ∉ xs)) = others := by
      funext y
      have hiff := h.live y
      by_cases hy : y ∈ xs
      · simp [hy, h.apart y hy]
      · simp only [hy, or_false, not_false_eq_true, decide_true, Bool.and_true] at hiff ⊢
        exact Bool.eq_iff_iff.mpr hiff
    refine ⟨{ kv with
        avl := avlInit kv.avl.listHead kv.avl.allowDups kv.avl.knot kv.avl.key kv.avl.leader kv.avl.list
        live := others }, ?_, ⟨⟨⟨[], [], sound_init .., rfl⟩, h.has.single⟩, fun y => ?_, nofun,
      fun name d => ?_⟩, rfl, rfl⟩
    · rw [kvlistFree, Kvlist.nextElement, if_pos (.inl rfl), hcirc.next_head, hfirst,
        Option.bind_some, Kvlist.nextElement, if_pos hknown, htmp, Option.bind_some, hloop, hlive]
      rfl
    · simp
    · exact iff_of_false nofun fun ⟨y, hy, _⟩ => List.not_mem_nil hy
  · have hxs : node ∈ xs := by
      obtain ⟨y, ys, rfl⟩ := List.exists_cons_of_ne_nil hne
      cases hfirst
      exact List.mem_cons_self
    exact (hsame node hxs).trans htmp

/-- The loop of `kvlist_for_each`, in front of the nodes `rest`. -/
theorem kvlistForEachFrom_spec {rest : List ν} {n : Nat} {node : ν}
    (hchain : (rest ++ [kv.avl.listHead]).IsChain fun a b => kv.avl.list.next a = some b)
    (hhead : kv.avl.listHead ∉ rest) (hlive : ∀ y ∈ rest, kv.live y = true)
    (hnode : (rest ++ [kv.avl.listHead]).head? = some node) (hn : rest.length < n) :
    kvlistForEachFrom kv n node = some (rest.map fun y => (kv.avl.key y, kv.data y)) := by
  induction rest generalizing n node with
  | nil =>
      obtain ⟨n, rfl⟩ := Nat.exists_eq_succ_of_ne_zero (Nat.ne_of_gt hn)
      cases hnode
      exact if_pos rfl
  | cons y rest ih =>
      obtain ⟨n, rfl⟩ := Nat.exists_eq_succ_of_ne_zero (Nat.ne_of_gt (Nat.zero_lt_of_lt hn))
      cases hnode
      obtain ⟨hfirst, hchain⟩ := List.isChain_cons.mp hchain
      obtain ⟨next, hnext⟩ : ∃ next, (rest ++ [kv.avl.listHead]).head? = some next := by
        cases rest <;> exact ⟨_, rfl⟩
      rw [List.mem_cons, not_or] at hhead
      rw [kvlistForEachFrom, if_neg fun heq => hhead.1 heq.symm, Kvlist.nextElement,
        if_pos (.inr (hlive y List.mem_cons_self)), hfirst next hnext, Option.bind_some,
        ih hchain hhead.2 (fun z hz => hlive z (List.mem_cons_of_mem y hz)) hnext
          (Nat.lt_of_succ_lt_succ hn)]
      rfl

/-- **`kvlist_for_each`** visits every name once, in the order of `strcmp`. -/
theorem kvlistForEach_spec (h : Models kv xs others m) (hfuel : xs.length < fuel) :
    ∃ entries, kvlistForEach fuel kv = some entries ∧
      (entries.Pairwise fun a b => avlStrcmp a.1 b.1 < 0) ∧
      ∀ name d, (name, d) ∈ entries ↔ m name = some d := by
  have hcirc := h.has.circle
  obtain ⟨node, hfirst⟩ : ∃ node, (xs ++ [kv.avl.listHead]).head? = some node := by
    cases xs <;> exact ⟨_, rfl⟩
  refine ⟨xs.map fun y => (kv.avl.key y, kv.data y), ?_, List.pairwise_map.mpr h.sorted,
    fun name d => ?_⟩
  · rw [kvlistForEach, Kvlist.nextElement, if_pos (.inl rfl), hcirc.next_head, hfirst,
      Option.bind_some]
    exact kvlistForEachFrom_spec (next_chain hcirc fun _ _ => rfl)
      (List.nodup_cons.mp h.has.nodup).1 (fun y hy => h.live_mem hy) hfirst hfuel
  · rw [h.value name d, List.mem_map]
    simp only [Prod.mk.injEq]

end Operations

/-! ## Runs -/

/-- A call of one of the functions.  `node` is what `calloc_a` returns. -/
inductive Op (ν : Type) where
  | set (name : CString) (node : ν) (data : Mem)
  | delete (name : CString)
  | free

section Runs

variable (getLen : Mem → Option Nat)

/-- What a call does to the map. -/
def Op.onMap : Op ν → Map → Map
  | set name _ data, m => Function.update m name ((getLen data).map data.take)
  | delete name, m => Function.update m name none
  | free, _ => fun _ => none

/-- What a call answers, by the map. -/
def Op.answer : Op ν → Map → Bool
  | delete name, m => (m name).isSome
  | _, _ => false

/-- The map behind some calls, and what they answer. -/
def mapRun : List (Op ν) → Map → List Bool × Map
  | [], m => ([], m)
  | op :: ops, m =>
      let (answers, m') := mapRun ops (op.onMap getLen m)
      (op.answer m :: answers, m')

variable [DecidableEq ν] (fuel : Nat)

/-- A call on the list. -/
def Op.run : Op ν → Kvlist ν → Option (Bool × Kvlist ν)
  | set name node data, kv => (kvlistSet getLen fuel kv name node data).map fun kv => (false, kv)
  | delete name, kv => kvlistDelete fuel kv name
  | free, kv => (kvlistFree fuel kv).map fun kv => (false, kv)

/-- One call after another. -/
def kvlistRun : List (Op ν) → Kvlist ν → Option (List Bool × Kvlist ν)
  | [], kv => some ([], kv)
  | op :: ops, kv =>
      (op.run getLen fuel kv).bind fun p =>
        (kvlistRun ops p.2).map fun q => (p.1 :: q.1, q.2)

/-- `calloc_a` finds memory that is not allocated, for a value whose length is known and a
sum that fits an `int`. -/
def Op.Allocates : Op ν → Kvlist ν → Prop
  | set name node data, kv =>
      kv.live node = false ∧ node ≠ kv.avl.listHead ∧ ∃ len ∈ getLen data, len ≤ data.length ∧
        nodeSize + len + (name.1.length + 1) < 2 ^ 31
  | _, _ => True

/-- So it does in every call of a run. -/
def Allocate : List (Op ν) → Kvlist ν → Prop
  | [], _ => True
  | op :: ops, kv =>
      op.Allocates getLen kv ∧ ∀ p ∈ op.run getLen fuel kv, Allocate ops p.2

variable {getLen fuel} {kv : Kvlist ν} {xs : List ν} {others : ν → Bool} {m : Map}

/-- A call does to the list what it does to the map. -/
theorem Op.run_spec {op : Op ν} (h : Models kv xs others m) (hop : op.Allocates getLen kv)
    (hfuel : xs.length + 2 < fuel) (hcount : xs.length < 2 ^ 32) :
    ∃ kv' xs', op.run getLen fuel kv = some (op.answer m, kv') ∧
      Models kv' xs' others (op.onMap getLen m) ∧ kv'.avl.listHead = kv.avl.listHead ∧
      xs'.length ≤ xs.length + 1 := by
  cases op with
  | set name node data =>
      obtain ⟨hlive, hhead, len, hlen, hle, hsize⟩ := hop
      obtain ⟨kv', xs', hset, h', hhead', hlength⟩ :=
        kvlistSet_spec h hfuel name hlive hhead (Option.mem_def.mp hlen) hle hsize
      refine ⟨kv', xs', by rw [run, hset]; rfl, ?_, hhead', hlength⟩
      rw [onMap, Option.mem_def.mp hlen]
      exact h'
  | delete name =>
      obtain ⟨kv', xs', hdelete, h', hhead', hlength, -⟩ := kvlistDelete_spec h hfuel name
      exact ⟨kv', xs', hdelete, h', hhead', by omega⟩
  | free =>
      obtain ⟨kv', hfree, h', hhead', -⟩ :=
        kvlistFree_spec h (by omega : xs.length < fuel) hcount
      exact ⟨kv', [], by rw [run, hfree]; rfl, h', hhead', Nat.zero_le _⟩

/-- A run does to the list what it does to the map, by induction over the calls. -/
theorem kvlistRun_spec {ops : List (Op ν)} (h : Models kv xs others m)
    (hops : Allocate getLen fuel ops kv) (hfuel : xs.length + ops.length + 2 < fuel)
    (hcount : xs.length + ops.length < 2 ^ 32) :
    ∃ kv' xs', kvlistRun getLen fuel ops kv = some ((mapRun getLen ops m).1, kv') ∧
      Models kv' xs' others (mapRun getLen ops m).2 ∧ kv'.avl.listHead = kv.avl.listHead ∧
      xs'.length ≤ xs.length + ops.length := by
  induction ops generalizing kv xs m with
  | nil => exact ⟨kv, xs, rfl, h, rfl, le_rfl⟩
  | cons op ops ih =>
      rw [List.length_cons] at hfuel hcount
      obtain ⟨hop, hrest⟩ := hops
      obtain ⟨kv₁, xs₁, hrun, h₁, hhead₁, hlength₁⟩ :=
        Op.run_spec h hop (by omega : xs.length + 2 < fuel) (by omega)
      obtain ⟨kv', xs', hrun', h', hhead', hlength'⟩ :=
        @ih kv₁ xs₁ _ h₁ (hrest (_, kv₁) hrun) (by omega) (by omega)
      refine ⟨kv', xs', ?_, h', hhead'.trans hhead₁, by rw [List.length_cons]; omega⟩
      rw [kvlistRun, hrun, Option.bind_some, hrun']
      rfl

/-- `kvlist_init` makes an empty map. -/
theorem models_init (kv : Kvlist ν) : Models (kvlistInit kv) [] kv.live fun _ => none where
  has := ⟨⟨[], [], sound_init .., rfl⟩, rfl⟩
  live y := by simp [kvlistInit]
  apart := nofun
  value name d := iff_of_false nofun fun ⟨y, hy, _⟩ => List.not_mem_nil hy

/-- A list of numbered nodes, of which `0` is the head. -/
def emptyList : Kvlist Nat :=
  ⟨avlInit 0 false (fun _ => ⟨none, none, none, 0⟩) (fun _ => ⟨[], by decide⟩) (fun _ => true)
    ⟨some, some⟩, fun _ => [], fun _ => false⟩

/-- Setting a name, and deleting it twice. -/
def setAndDelete : List (Op Nat) :=
  [.set ⟨[97], by decide⟩ 1 [120, 0], .delete ⟨[97], by decide⟩, .delete ⟨[97], by decide⟩]

theorem allocate_setAndDelete :
    Allocate kvlistStrlen 6 setAndDelete (kvlistInit emptyList) :=
  ⟨⟨rfl, by decide, 2, rfl, by decide, by decide⟩,
    fun _ _ => ⟨trivial, fun _ _ => ⟨trivial, fun _ _ => trivial⟩⟩⟩

end Runs

end Libubox.Kv
