import Libubox.Lib.Machine
import Libubox.Vlist.Tree

/-!
# Mark and sweep

`vlist_add` marks a node with the version of the tree and `vlist_flush` sweeps those
that are not marked, so what is in the tree behind a flush is what was added since
the last `vlist_update`.  The version `-1`, which `vlist_flush_all` gives to the
tree, breaks this: every flush at another version keeps the nodes that were added
at that one.

`since` follows the calls: the keys that were added since the last `vlist_update`
and not deleted, or `none` before the first one.
-/

namespace Libubox.Vlist

open Avl Circles Machine

variable {ν κ : Type*} [DecidableEq ν]

/-- The calls of a user of the tree. -/
inductive Op (ν κ : Type*)
  | add (node : ν) (key : κ)
  | delete (node : ν)
  | update
  | flush
  | flushAll

/-- A tree and the keys that belong in it. -/
structure Tracked (ν κ : Type*) where
  tree : VlistTree ν κ
  since : Option (List κ)

/-- The keys after a call.  `vlist_flush_all` deletes every node. -/
def Tracked.next (comp : κ → κ → Int) (s : Tracked ν κ) : Op ν κ → Option (List κ)
  | .add _ key => s.since.map (key :: ·)
  | .delete node => s.since.map (·.filter fun key => comp key (s.tree.avl.key node) ≠ 0)
  | .update => some []
  | .flush => s.since
  | .flushAll => s.since.map fun _ => []

/-- A call on the tree. -/
def call (comp : κ → κ → Int) (fuel : Nat) (t : VlistTree ν κ) :
    Op ν κ → Option (VlistTree ν κ × List (UpdateCall ν))
  | .add node key => vlistAdd comp fuel t node key
  | .delete node => vlistDelete fuel t node
  | .update => (vlistUpdate t).map fun t => (t, [])
  | .flush => vlistFlush fuel t
  | .flushAll => vlistFlushAll fuel t

def step (comp : κ → κ → Int) (fuel : Nat) (s : Tracked ν κ) (op : Op ν κ) :
    Option (Tracked ν κ × List (UpdateCall ν)) :=
  (call comp fuel s.tree op).map fun r => (⟨r.1, s.next comp op⟩, r.2)

/-- The node is in the list of the tree. -/
def VlistTree.InTree (t : VlistTree ν κ) (node : ν) : Prop :=
  ∃ xs, Circles.Circle t.avl.list t.avl.listHead xs ∧ t.avl.listHead ∉ xs ∧ node ∈ xs

/-- What a caller has to see to. -/
def Allowed (s : Tracked ν κ) : Op ν κ → Prop
  | .add node _ => ¬s.tree.InTree node ∧ node ≠ s.tree.avl.listHead
  | .delete node => s.tree.InTree node
  | _ => True

/-- A flush has left the nodes of the keys `since`, and has called `update` once for
each node it removed. -/
def Swept (comp : κ → κ → Int) (t t' : VlistTree ν κ) (calls : List (UpdateCall ν))
    (since : List κ) : Prop :=
  (∀ k, (∃ x, t'.InTree x ∧ comp k (t'.avl.key x) = 0) ↔ ∃ k' ∈ since, comp k k' = 0) ∧
    ∃ removed : List ν, calls = removed.map (fun x => ⟨none, some x⟩) ∧ removed.Nodup ∧
      ∀ x, x ∈ removed ↔ t.InTree x ∧ ¬t'.InTree x

/-- The call returns; a flush behind an update has swept. -/
def Lawful (comp : κ → κ → Int) (fuel : Nat) (s : Tracked ν κ) (op : Op ν κ) : Prop :=
  ∃ s' calls, step comp fuel s op = some (s', calls) ∧
    ∀ since, op = .flush → s.since = some since → Swept comp s.tree s'.tree calls since

/-- A flush finds no node with the version `-1`, and an update does not overflow. -/
def Clean (s : Tracked ν κ) : Op ν κ → Prop
  | .flush => s.since ≠ none → ∀ x, s.tree.InTree x → s.tree.nodeVersion x ≠ -1
  | .update => s.tree.version + 1 < 2 ^ 31
  | _ => True

/-! ## The invariant -/

/-- The nodes of the version of the tree are those of the keys `since`. -/
structure Marked (comp : κ → κ → Int) (s : Tracked ν κ) (xs : List ν) : Prop where
  has : Has comp s.tree.avl xs
  noDelete : s.tree.noDelete = false
  le_version : ∀ x ∈ xs, s.tree.nodeVersion x ≤ s.tree.version
  marks : ∀ since, s.since = some since → ∀ k,
    (∃ x ∈ xs, s.tree.nodeVersion x = s.tree.version ∧ comp k (s.tree.avl.key x) = 0) ↔
      ∃ k' ∈ since, comp k k' = 0

variable {comp : κ → κ → Int} {fuel : Nat} {t : VlistTree ν κ} {s : Tracked ν κ} {xs : List ν}
  {x : ν} {k : κ}

omit [DecidableEq ν] in
theorem Has.inTree_iff (h : Has comp t.avl xs) : t.InTree x ↔ x ∈ xs := by
  have hhead := (List.nodup_cons.mp h.nodup).1
  constructor
  · rintro ⟨ys, hcirc, hys, hx⟩
    rwa [← hcirc.unique h.circle hys hhead]
  · exact fun hx => ⟨xs, h.circle, hhead, hx⟩

/-- The call returns and keeps the invariant. -/
def Advances (comp : κ → κ → Int) (fuel : Nat) (s : Tracked ν κ) (op : Op ν κ) (xs : List ν) : Prop :=
  ∃ s' calls xs', step comp fuel s op = some (s', calls) ∧ Marked comp s' xs' ∧
    xs'.length ≤ xs.length + 1

namespace Marked

theorem add (hcomp : TotalPreorder comp) (h : Marked comp s xs) (hallowed : Allowed s (.add x k))
    (hfuel : xs.length + 2 < fuel) : Advances comp fuel s (.add x k) xs := by
  have hx : x ∉ s.tree.avl.listHead :: xs := by
    rw [List.mem_cons, not_or]
    exact ⟨hallowed.2, fun hmem => hallowed.1 (h.has.inTree_iff.mpr hmem)⟩
  obtain ⟨t', xs', calls, hadd, hadded⟩ := vlistAdd_spec hcomp h.noDelete h.has hx hfuel k
  refine ⟨⟨t', s.next comp (.add x k)⟩, calls, xs', ?_, ⟨hadded.has,
    hadded.noDelete.trans h.noDelete, ?_, ?_⟩, hadded.length⟩
  · rw [step, call, hadd]
    rfl
  · intro y hy
    show t'.nodeVersion y ≤ t'.version
    rw [hadded.version]
    by_cases hyk : comp k (t'.avl.key y) = 0
    · exact Int.le_of_eq (hadded.current y hy hyk)
    · obtain ⟨hyxs, hyk⟩ := (hadded.others y).mp ⟨hy, hyk⟩
      rw [(hadded.kept y hyxs hyk).2]
      exact h.le_version y hyxs
  · intro since hsince k₀
    obtain ⟨old, hold, rfl⟩ := Option.map_eq_some_iff.mp hsince
    have hmarks := h.marks old hold k₀
    show (∃ y ∈ xs', t'.nodeVersion y = t'.version ∧ comp k₀ (t'.avl.key y) = 0) ↔ _
    rw [hadded.version, List.exists_mem_cons_iff, ← hmarks]
    constructor
    · rintro ⟨y, hy, hversion, hyk₀⟩
      by_cases hyk : comp k (t'.avl.key y) = 0
      · exact .inl ((hcomp.zero_congr hyk₀).mpr (hcomp.zero_symm hyk))
      · obtain ⟨hyxs, hyk⟩ := (hadded.others y).mp ⟨hy, hyk⟩
        obtain ⟨hkey, hnode⟩ := hadded.kept y hyxs hyk
        exact .inr ⟨y, hyxs, hnode ▸ hversion, hkey ▸ hyk₀⟩
    · have htaken : comp k₀ k = 0 →
          ∃ y ∈ xs', t'.nodeVersion y = s.tree.version ∧ comp k₀ (t'.avl.key y) = 0 := by
        intro hk₀
        obtain ⟨y, hy, hyk⟩ := hadded.taken
        exact ⟨y, hy, hadded.current y hy hyk, (hcomp.zero_congr hk₀).mpr hyk⟩
      rintro (hk₀ | ⟨y, hy, hversion, hyk₀⟩)
      · exact htaken hk₀
      · by_cases hyk : comp k (s.tree.avl.key y) = 0
        · exact htaken ((hcomp.zero_congr hyk₀).mpr (hcomp.zero_symm hyk))
        · obtain ⟨hkey, hnode⟩ := hadded.kept y hy hyk
          exact ⟨y, ((hadded.others y).mpr ⟨hy, hyk⟩).1, hnode ▸ hversion, hkey ▸ hyk₀⟩

theorem delete (hcomp : TotalPreorder comp) (h : Marked comp s xs)
    (hallowed : Allowed s (.delete x)) (hfuel : xs.length + 2 < fuel) :
    Advances comp fuel s (.delete x) xs := by
  have hx : x ∈ xs := h.has.inTree_iff.mp hallowed
  have hnodup := (List.nodup_cons.mp h.has.nodup).2
  obtain ⟨avl, hdelete, hhas, hsame⟩ := vlistDelete_spec hcomp h.noDelete h.has hx hfuel
  refine ⟨⟨{ s.tree with avl := avl }, s.next comp (.delete x)⟩, [⟨none, some x⟩], xs.erase x, ?_,
    ⟨hhas, h.noDelete, fun y hy => h.le_version y (List.mem_of_mem_erase hy), ?_⟩, ?_⟩
  · rw [step, call, hdelete]
    rfl
  · intro since hsince k
    obtain ⟨old, hold, rfl⟩ := Option.map_eq_some_iff.mp hsince
    have hmarks := h.marks old hold k
    show (∃ y ∈ xs.erase x, s.tree.nodeVersion y = s.tree.version ∧ comp k (avl.key y) = 0) ↔ _
    rw [hsame.1]
    constructor
    · rintro ⟨y, hy, hversion, hyk⟩
      obtain ⟨hne, hy⟩ := hnodup.mem_erase_iff.mp hy
      obtain ⟨k', hk', hkk'⟩ := hmarks.mp ⟨y, hy, hversion, hyk⟩
      refine ⟨k', List.mem_filter.mpr ⟨hk', ?_⟩, hkk'⟩
      -- a deleted key would be the key of two nodes
      have hother : comp k' (s.tree.avl.key x) ≠ 0 := by
        intro hzero
        have hkx := (hcomp.zero_congr hkk').mpr hzero
        exact hne (h.has.key_inj hcomp hy hx ((hcomp.zero_congr hyk).mp hkx))
      simpa using hother
    · rintro ⟨k', hk', hkk'⟩
      obtain ⟨hk', hother⟩ := List.mem_filter.mp hk'
      obtain ⟨y, hy, hversion, hyk⟩ := hmarks.mpr ⟨k', hk', hkk'⟩
      refine ⟨y, hnodup.mem_erase_iff.mpr ⟨?_, hy⟩, hversion, hyk⟩
      rintro rfl
      have hzero := (hcomp.zero_congr hkk').mp hyk
      exact absurd hzero (by simpa using hother)
  · exact List.length_erase_le.trans (Nat.le_succ _)

theorem update (h : Marked comp s xs) (hclean : s.tree.version + 1 < 2 ^ 31) :
    Advances comp fuel s .update xs := by
  refine ⟨⟨{ s.tree with version := s.tree.version + 1 }, some []⟩, [], xs, ?_,
    ⟨h.has, h.noDelete, ?_, ?_⟩, Nat.le_succ _⟩
  · rw [step, call, vlistUpdate, if_pos hclean]
    rfl
  · intro y hy
    have := h.le_version y hy
    show s.tree.nodeVersion y ≤ s.tree.version + 1
    omega
  · intro since hsince k
    cases hsince
    refine iff_of_false ?_ (by simp)
    rintro ⟨y, hy, hversion, -⟩
    have := h.le_version y hy
    change s.tree.nodeVersion y = s.tree.version + 1 at hversion
    omega

theorem flushAll (hcomp : TotalPreorder comp) (h : Marked comp s xs)
    (hfuel : xs.length + 2 < fuel) : Advances comp fuel s .flushAll xs := by
  obtain ⟨avl, hflush, hhas, hsame⟩ :=
    @vlistFlush_spec _ _ _ comp fuel { s.tree with version := -1 } xs hcomp h.noDelete h.has hfuel
  have hnone : (xs.filter fun y => VlistTree.keeps { s.tree with version := -1 } y) = [] := by
    rw [List.filter_eq_nil_iff]
    intro y _ hkeeps
    exact (of_decide_eq_true hkeeps).2 rfl
  rw [hnone] at hhas
  have hstep : ∃ calls, step comp fuel s .flushAll =
      some (⟨{ s.tree with version := -1, avl := avl }, s.next comp .flushAll⟩, calls) := by
    rw [step, call, vlistFlushAll, hflush]
    exact ⟨_, rfl⟩
  obtain ⟨calls, hstep⟩ := hstep
  refine ⟨_, calls, [], hstep, ⟨hhas, h.noDelete, ?_, ?_⟩, Nat.zero_le _⟩
  · exact fun y hy => absurd hy List.not_mem_nil
  · intro since hsince k
    obtain ⟨old, -, rfl⟩ := Option.map_eq_some_iff.mp hsince
    simp

/-- A flush, on any state of a run. -/
theorem flush_step (hcomp : TotalPreorder comp) (h : Marked comp s xs)
    (hfuel : xs.length + 2 < fuel) :
    ∃ avl, step comp fuel s .flush = some (⟨{ s.tree with avl := avl }, s.since⟩,
        (xs.filter fun y => ¬s.tree.keeps y).map fun y => ⟨none, some y⟩) ∧
      Has comp avl (xs.filter fun y => s.tree.keeps y) ∧ avl.key = s.tree.avl.key := by
  obtain ⟨avl, hflush, hhas, hsame⟩ := vlistFlush_spec hcomp h.noDelete h.has hfuel
  refine ⟨avl, ?_, hhas, hsame.1⟩
  rw [step, call, hflush]
  rfl

omit [DecidableEq ν] in
/-- Without a version `-1` the nodes that stay are those of the version of the tree. -/
theorem keeps_iff (hclean : s.tree.nodeVersion x ≠ -1) :
    s.tree.keeps x ↔ s.tree.nodeVersion x = s.tree.version := by
  constructor
  · exact fun hkeeps => hkeeps.1.resolve_right hclean
  · exact fun hversion => ⟨.inl hversion, fun hall => hclean (hversion.trans hall)⟩

/-- What a flush has removed, whether it has swept or not. -/
theorem flush_removed {avl : AvlTree ν κ} (h : Marked comp s xs)
    (hhas : Has comp avl (xs.filter fun y => s.tree.keeps y)) (y : ν) :
    y ∈ (xs.filter fun y => ¬s.tree.keeps y) ↔
      s.tree.InTree y ∧ ¬VlistTree.InTree { s.tree with avl := avl } y := by
  have hafter : VlistTree.InTree { s.tree with avl := avl } y ↔
      y ∈ xs.filter fun y => s.tree.keeps y :=
    Has.inTree_iff (t := { s.tree with avl := avl }) hhas
  rw [h.has.inTree_iff, hafter]
  simp only [List.mem_filter, decide_eq_true_eq]
  tauto

theorem flush_iff (hcomp : TotalPreorder comp) (h : Marked comp s xs)
    (hfuel : xs.length + 2 < fuel) : Lawful comp fuel s .flush ↔ Clean s .flush := by
  obtain ⟨avl, hstep, hhas, hkey⟩ := h.flush_step hcomp hfuel
  have hin : ∀ y, VlistTree.InTree { s.tree with avl := avl } y ↔
      y ∈ xs.filter fun y => s.tree.keeps y := fun y =>
    Has.inTree_iff (t := { s.tree with avl := avl }) hhas
  constructor
  · rintro ⟨s', calls, hres, hswept⟩ hsome x hx hminus
    cases hstep.symm.trans hres
    obtain ⟨since, hsince⟩ := Option.ne_none_iff_exists'.mp hsome
    obtain ⟨hkeys, -⟩ := hswept since rfl hsince
    have hxs : x ∈ xs := h.has.inTree_iff.mp hx
    have hmarks := h.marks since hsince (s.tree.avl.key x)
    have hkeys := hkeys (s.tree.avl.key x)
    simp only [hin, hkey] at hkeys
    have hrefl := hcomp.refl (s.tree.avl.key x)
    by_cases hall : s.tree.version = -1
    · -- nothing is kept, but the key of `x` was added
      obtain ⟨y, hy, -⟩ := hkeys.mpr (hmarks.mp ⟨x, hxs, hminus.trans hall.symm, hrefl⟩)
      exact (of_decide_eq_true (List.mem_filter.mp hy).2).2 hall
    · -- `x` is kept, but its key was not added
      have hkept : x ∈ xs.filter fun y => s.tree.keeps y :=
        List.mem_filter.mpr ⟨hxs, decide_eq_true ⟨.inr hminus, hall⟩⟩
      obtain ⟨y, hy, hversion, hxy⟩ := hmarks.mpr (hkeys.mp ⟨x, hkept, hrefl⟩)
      obtain rfl := h.has.key_inj hcomp hxs hy hxy
      exact hall (hversion.symm.trans hminus)
  · intro hclean
    refine ⟨_, _, hstep, fun since _ hsince => ⟨fun k => ?_, _, rfl, ?_, h.flush_removed hhas⟩⟩
    · have hne : s.since ≠ none := by simp [hsince]
      rw [← h.marks since hsince k]
      simp only [hin, hkey, List.mem_filter, decide_eq_true_eq, and_assoc]
      refine exists_congr fun y => and_congr_right fun hy => and_congr_left fun _ => ?_
      exact keeps_iff (hclean hne y (h.has.inTree_iff.mpr hy))
    · exact (List.nodup_cons.mp h.has.nodup).2.filter _

theorem flush (hcomp : TotalPreorder comp) (h : Marked comp s xs) (hfuel : xs.length + 2 < fuel)
    (hclean : Clean s .flush) : Advances comp fuel s .flush xs := by
  obtain ⟨avl, hstep, hhas, hkey⟩ := h.flush_step hcomp hfuel
  refine ⟨_, _, _, hstep, ⟨hhas, h.noDelete, ?_, ?_⟩, ?_⟩
  · exact fun y hy => h.le_version y (List.mem_of_mem_filter hy)
  · intro since hsince k
    have hne : s.since ≠ none := fun hnone => nomatch hnone.symm.trans hsince
    rw [← h.marks since hsince k]
    simp only [hkey, List.mem_filter, decide_eq_true_eq, and_assoc]
    refine exists_congr fun y => and_congr_right fun hy => ?_
    rw [keeps_iff (hclean hne y (h.has.inTree_iff.mpr hy))]
    tauto
  · exact (List.length_filter_le ..).trans (Nat.le_succ _)

/-- A step keeps the invariant, when it meets the condition. -/
theorem advances (hcomp : TotalPreorder comp) (h : Marked comp s xs)
    (hfuel : xs.length + 2 < fuel) {op : Op ν κ} (hallowed : Allowed s op) (hclean : Clean s op) :
    Advances comp fuel s op xs := by
  cases op with
  | add x k => exact h.add hcomp hallowed hfuel
  | delete x => exact h.delete hcomp hallowed hfuel
  | update => exact h.update hclean
  | flush => exact h.flush hcomp hfuel hclean
  | flushAll => exact h.flushAll hcomp hfuel

theorem lawful_iff (hcomp : TotalPreorder comp) (h : Marked comp s xs)
    (hfuel : xs.length + 2 < fuel) {op : Op ν κ} (hallowed : Allowed s op) :
    Lawful comp fuel s op ↔ Clean s op := by
  have hother : op ≠ .flush → Advances comp fuel s op xs → Lawful comp fuel s op := by
    rintro hne ⟨s', calls, -, hstep, -⟩
    exact ⟨s', calls, hstep, fun since heq => absurd heq hne⟩
  cases op with
  | add x k => exact iff_of_true (hother (nofun) (h.add hcomp hallowed hfuel)) trivial
  | delete x => exact iff_of_true (hother (nofun) (h.delete hcomp hallowed hfuel)) trivial
  | flushAll => exact iff_of_true (hother (nofun) (h.flushAll hcomp hfuel)) trivial
  | flush => exact h.flush_iff hcomp hfuel
  | update =>
      refine ⟨?_, fun hclean => hother (nofun) (h.update hclean)⟩
      rintro ⟨s', calls, hstep, -⟩
      by_contra hover
      change ¬s.tree.version + 1 < 2 ^ 31 at hover
      rw [step, call, vlistUpdate, if_neg hover] at hstep
      cases hstep

/-- Every run: each call is as it should be as long as each meets the condition. -/
theorem along_iff (hcomp : TotalPreorder comp) {ops : List (Op ν κ)} (h : Marked comp s xs)
    (hfuel : xs.length + ops.length + 2 < fuel)
    (hallowed : Along (step comp fuel) Allowed s ops) :
    Along (step comp fuel) (Lawful comp fuel) s ops ↔ Along (step comp fuel) Clean s ops := by
  induction ops generalizing s xs with
  | nil => exact Iff.rfl
  | cons op ops ih =>
      rw [List.length_cons] at hfuel
      refine (and_congr (h.lawful_iff hcomp (by omega) hallowed.1) Iff.rfl).trans ?_
      refine and_congr_right fun hclean => ?_
      obtain ⟨s', calls, xs', hstep, hmarked, hlength⟩ :=
        h.advances hcomp (by omega : xs.length + 2 < fuel) hallowed.1 hclean
      refine forall₂_congr fun r hr => ?_
      cases hstep.symm.trans hr
      exact ih hmarked (by omega) (hallowed.2 _ hstep)

end Marked

/-- A tree after `vlist_init`. -/
def start (t : VlistTree ν κ) : Tracked ν κ := ⟨vlistInit t, none⟩

theorem marked_start (comp : κ → κ → Int) (hno : t.noDelete = false) : Marked comp (start t) [] where
  has := ⟨⟨[], [], sound_init comp .., rfl⟩, rfl⟩
  noDelete := hno
  le_version _ hx := absurd hx List.not_mem_nil
  marks _ hsince := nomatch hsince

/-- **Mark and sweep**: in a run all calls return and every flush behind an update
sweeps if and only if no such flush finds a node with the version `-1`, and no update
overflows. -/
theorem mark_and_sweep_iff (hcomp : TotalPreorder comp) (t : VlistTree ν κ)
    (hno : t.noDelete = false) (ops : List (Op ν κ)) (hfuel : ops.length + 2 < fuel)
    (hallowed : Along (step comp fuel) Allowed (start t) ops) :
    Along (step comp fuel) (Lawful comp fuel) (start t) ops ↔
      Along (step comp fuel) Clean (start t) ops := by
  refine (marked_start comp hno).along_iff hcomp ?_ hallowed
  rw [List.length_nil]
  omega

/-- An empty tree of numbers. -/
def empty (keepOld : Bool) : VlistTree Nat Nat where
  avl := avlInit 0 false (fun _ => ⟨none, none, none, 0⟩) id (fun _ => true) ⟨some, some⟩
  keepOld := keepOld
  noDelete := false
  version := 0
  nodeVersion _ := 0

omit [DecidableEq ν] in
theorem not_inTree (hnext : t.avl.list.next t.avl.listHead = some t.avl.listHead) :
    ¬t.InTree x := by
  rintro ⟨xs, hcirc, hhead, hx⟩
  cases xs with
  | nil => cases hx
  | cons y ys =>
      have hy := hcirc.next_head.symm.trans hnext
      obtain rfl : y = t.avl.listHead := Option.some.inj hy
      exact hhead List.mem_cons_self

/-- A node is added, and a flush of the next version sweeps it. -/
theorem mark_and_sweep_iff_next :
    Along (step natComp 8) (Lawful natComp 8) (start (empty false)) [.add 1 5, .update, .flush] := by
  refine (mark_and_sweep_iff natComp_preorder (empty false) rfl _ (by decide) ?_).mpr ?_
  · refine ⟨⟨not_inTree rfl, Nat.one_ne_zero⟩, fun _ _ => ⟨trivial, fun _ _ => ?_⟩⟩
    exact ⟨trivial, fun _ _ => trivial⟩
  · have hversion : (1 : Int) + 1 < 2 ^ 31 := by decide
    refine ⟨trivial, fun r hr => ?_⟩
    cases hr
    refine ⟨hversion, fun r hr => ?_⟩
    cases hr
    refine ⟨fun _ x _ => ?_, fun _ _ => trivial⟩
    show Function.update (fun _ => (0 : Int)) 1 1 x ≠ -1
    by_cases hx : x = 1
    · simp [hx]
    · simp [hx]

/-- What is added behind a `vlist_flush_all` stays at the next flush. -/
theorem not_mark_and_sweep : ¬∀ (t : VlistTree Nat Nat) (ops : List (Op Nat Nat)) (fuel : Nat),
    t.noDelete = false → ops.length + 2 < fuel →
      Along (step natComp fuel) Allowed (start t) ops →
        Along (step natComp fuel) (Lawful natComp fuel) (start t) ops := by
  intro hclaim
  have hallowed : Along (step natComp 8) Allowed (start (empty false))
      [.update, .flushAll, .add 1 5, .update, .flush] := by
    refine ⟨trivial, fun r hr => ?_⟩
    cases hr
    refine ⟨trivial, fun r hr => ?_⟩
    cases hr
    refine ⟨⟨not_inTree rfl, Nat.one_ne_zero⟩, fun _ _ => ⟨trivial, fun _ _ => ?_⟩⟩
    exact ⟨trivial, fun _ _ => trivial⟩
  have h := hclaim (empty false) _ 8 rfl (by decide) hallowed
  obtain ⟨s', calls, hstep, hswept⟩ := ((((h.2 _ rfl).2 _ rfl).2 _ rfl).2 _ rfl).1
  obtain ⟨hkeys, -⟩ := hswept [] rfl rfl
  -- the list is the head `0` and the node `1`
  have hin : s'.tree.InTree 1 := by
    cases hstep
    refine ⟨[1], .cons_cons ⟨rfl, rfl⟩ (.cons_cons ⟨rfl, rfl⟩ (.singleton _)), ?_,
      List.mem_singleton_self 1⟩
    exact fun hmem => nomatch List.mem_singleton.mp hmem
  obtain ⟨k', hk', -⟩ := (hkeys 5).mp ⟨1, hin, by cases hstep; rfl⟩
  exact absurd hk' List.not_mem_nil

end Libubox.Vlist
