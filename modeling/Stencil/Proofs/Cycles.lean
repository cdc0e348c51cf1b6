import Mathlib.Data.List.Chain
import Mathlib.Data.List.Nodup
import Mathlib.Logic.Relation
import Stencil.Proofs.Order
import Stencil.Proofs.Validity

/-! Orders and cycles. Regions are put in order by placing the lowest one that is ready, and a cycle
is found by a walk along the consumers. The two agree: a walk that meets no cycle leaves every
region behind its consumers, which read backwards is an order, so a function that has no order has a
cycle to report. -/

set_option autoImplicit false

namespace Stencil.Func

/-- The second region lists a result of the first among its operands. -/
def Feeds (f : Func) (p c : RegionId) : Prop :=
  ∃ P C t, f.region? p = some P ∧ f.region? c = some C ∧ t ∈ P.results ∧ .temp t ∈ C.operands

/-- No region feeds itself, not even through others. -/
def Acyclic (f : Func) : Prop := ∀ id, ¬ Relation.TransGen f.Feeds id id

/-- The regions that are there, each once and behind those that feed it. -/
structure Linear (f : Func) (order : List RegionId) : Prop where
  perm : order.Perm f.regionIds
  behind : Behind f.Feeds order

/-- Distinct regions, each of which feeds the next, and the last one the first. -/
structure Ring (f : Func) (cycle : List RegionId) : Prop where
  nonempty : cycle ≠ []
  nodup : cycle.Nodup
  live : ∀ id, id ∈ cycle → id ∈ f.regionIds
  closed : ∃ last, cycle.getLast? = some last ∧ (last :: cycle).IsChain f.Feeds

section Graph

variable {f : Func}

theorem Feeds.live {p c : RegionId} (h : f.Feeds p c) : p ∈ f.regionIds ∧ c ∈ f.regionIds := by
  obtain ⟨P, C, _, hP, hC, _, _⟩ := h
  exact ⟨mem_regionIds.mpr ⟨P, hP⟩, mem_regionIds.mpr ⟨C, hC⟩⟩

theorem mem_producers_iff (hf : f.Sound) {p c : RegionId} : p ∈ f.producers c ↔ f.Feeds p c := by
  rw [mem_producers]
  constructor
  · rintro ⟨C, t, x, hC, ht, hx, rfl⟩
    obtain ⟨P, hP, hres⟩ := hf.produced t x hx
    exact ⟨P, C, t, hP, hC, List.mem_of_getElem? hres, ht⟩
  · rintro ⟨P, C, t, hP, hC, hres, ht⟩
    obtain ⟨i, hi⟩ := List.mem_iff_getElem?.mp hres
    obtain ⟨x, hx, hp, _⟩ := hf.owned p P i t hP hi
    exact ⟨C, t, x, hC, ht, hx, hp⟩

theorem mem_consumers_iff (hf : f.Sound) {p c : RegionId} : c ∈ f.consumers p ↔ f.Feeds p c := by
  simp only [consumers, List.mem_filter, List.contains_eq_mem, decide_eq_true_eq, mem_producers_iff hf]
  exact ⟨fun h => h.2, fun h => ⟨h.live.2, h⟩⟩

theorem linear_iff_ordered (hf : f.Sound) {order : List RegionId} : f.Linear order ↔ f.Ordered order := by
  constructor
  · intro h
    refine ⟨⟨h.perm.nodup_iff.mpr f.nodup_regionIds, fun id hid => h.perm.mem_iff.mp hid, ?_⟩, h.perm⟩
    intro before id after heq p hp
    exact h.behind before id after heq p ((mem_producers_iff hf).mp hp)
  · intro h
    refine ⟨h.perm, ?_⟩
    intro before id after heq p hp
    exact h.producers before id after heq p ((mem_producers_iff hf).mpr hp)

theorem Linear.idxOf_lt {order : List RegionId} (h : f.Linear order) {p c : RegionId}
    (hpc : f.Feeds p c) :
    order.idxOf p < order.idxOf c := by
  obtain ⟨before, after, heq⟩ := List.append_of_mem (h.perm.mem_iff.mpr hpc.live.2)
  have hp := h.behind before c after heq p hpc
  have hnodup := h.perm.nodup_iff.mpr f.nodup_regionIds
  have hc : c ∉ before := by
    rw [heq, List.nodup_append] at hnodup
    exact fun hm => hnodup.2.2 c hm c (by simp) rfl
  rw [heq, List.idxOf_append_of_mem hp, List.idxOf_append_of_notMem hc, List.idxOf_cons_self]
  exact List.idxOf_lt_length_of_mem hp

theorem Linear.acyclic {order : List RegionId} (h : f.Linear order) : f.Acyclic := by
  have hlt : ∀ p c, Relation.TransGen f.Feeds p c → order.idxOf p < order.idxOf c := by
    intro p c hpc
    induction hpc with
    | single hpc => exact h.idxOf_lt hpc
    | tail _ hpc ih => exact Nat.lt_trans ih (h.idxOf_lt hpc)
  exact fun id hid => Nat.lt_irrefl _ (hlt id id hid)

theorem Ring.not_acyclic {cycle : List RegionId} (h : f.Ring cycle) : ¬ f.Acyclic := by
  obtain ⟨last, hlast, hchain⟩ := h.closed
  have htrans : (last :: cycle).IsChain (Relation.TransGen f.Feeds) :=
    hchain.imp fun _ _ => Relation.TransGen.single
  exact fun hacyclic => hacyclic last (htrans.rel_cons (List.mem_of_getLast? hlast))

end Graph

theorem nextReady?_le {f : Func} {placed : List RegionId} {r x : RegionId}
    (h : f.nextReady? placed = some r)
    (hx : x ∈ f.regionIds) (hnew : x ∉ placed) (hready : ∀ p, p ∈ f.producers x → p ∈ placed) :
    r ≤ x := by
  obtain ⟨_, before, after, heq, hbefore⟩ := List.find?_eq_some_iff_append.mp h
  have hsorted := f.pairwise_regionIds
  rw [heq] at hx hsorted
  rcases List.mem_append.mp hx with hx | hx
  · have hno := hbefore x hx
    have hyes : f.isReady placed x = true := by
      rw [isReady, Bool.and_eq_true, List.all_eq_true]
      exact ⟨by simpa using hnew, fun p hp => by simpa using hready p hp⟩
    rw [hyes] at hno
    cases hno
  · rcases List.mem_cons.mp hx with rfl | hx
    · exact Nat.le_refl x
    · have hafter := (List.pairwise_append.mp hsorted).2.1
      exact Nat.le_of_lt ((List.pairwise_cons.mp hafter).1 x hx)

theorem prefix_placeReady (f : Func) (fuel : Nat) (placed : List RegionId) :
    placed <+: f.placeReady fuel placed := by
  induction fuel generalizing placed with
  | zero => exact List.prefix_rfl
  | succ fuel ih =>
    rw [placeReady]
    cases f.nextReady? placed with
    | none => exact List.prefix_rfl
    | some r => exact (List.prefix_append placed [r]).trans (ih (placed ++ [r]))

/-- From the same beginning on, no order is lower than the one that placing ready regions makes. -/
theorem Ordered.lex_placeReady {f : Func} {placed rest : List RegionId} (h : f.Ordered (placed ++ rest)) :
    f.placeReady rest.length placed = placed ++ rest ∨
      List.Lex (· < ·) (f.placeReady rest.length placed) (placed ++ rest) := by
  induction rest generalizing placed with
  | nil => exact .inl (by simp [placeReady])
  | cons x rest ih =>
    have hx : x ∈ placed ++ x :: rest := by simp
    have hnew : x ∉ placed := by
      have hnodup := h.nodup
      rw [List.nodup_append] at hnodup
      exact fun hm => hnodup.2.2 x hm x (by simp) rfl
    obtain ⟨r, hr⟩ := h.exists_nextReady? hx hnew
    have hle := nextReady?_le hr (h.live x hx) hnew (h.producers placed x rest rfl)
    simp only [List.length_cons, placeReady, hr]
    rcases Nat.lt_or_eq_of_le hle with hlt | rfl
    · -- what is placed stays in front, so the orders part at `r`
      right
      obtain ⟨tail, htail⟩ := f.prefix_placeReady rest.length (placed ++ [r])
      rw [← htail, List.append_assoc]
      exact List.Lex.append_left _ (List.Lex.rel hlt) placed
    · have hnext : f.Ordered ((placed ++ [r]) ++ rest) := by simpa using h
      simpa using ih hnext

/-- Regions in the order in which a walk has left them, each behind all that it feeds. -/
structure Explored (f : Func) (explored : List RegionId) : Prop where
  nodup : explored.Nodup
  live : ∀ id, id ∈ explored → id ∈ f.regionIds
  behind : Behind (fun c p => f.Feeds p c) explored

structure Walk (f : Func) (path : List RegionId) : Prop where
  nodup : path.Nodup
  live : ∀ id, id ∈ path → id ∈ f.regionIds
  chain : path.IsChain f.Feeds

/-- What a search for `targets` may answer that has left `explored` and is on `path`: all that it
has left by then, with the targets and nothing of the path, or a cycle. -/
def Searched (f : Func) (path explored targets : List RegionId) :
    Except (List RegionId) (List RegionId) → Prop
  | .ok found =>
    f.Explored found ∧ (∀ id, id ∈ explored → id ∈ found) ∧ (∀ id, id ∈ targets → id ∈ found) ∧
      ∀ id, id ∈ path → id ∉ found
  | .error cycle => f.Ring cycle

section Search

variable {f : Func}

theorem explored_nil : f.Explored [] where
  nodup := List.nodup_nil
  live id hid := by cases hid
  behind before id after h := by simp at h

theorem Explored.snoc {explored : List RegionId} (h : f.Explored explored) {node : RegionId}
    (hlive : node ∈ f.regionIds) (hnew : node ∉ explored) (hfed : ∀ c, f.Feeds node c → c ∈ explored) :
    f.Explored (explored ++ [node]) where
  nodup := by simpa using List.Nodup.concat hnew h.nodup
  live id hid := by
    rcases List.mem_append.mp hid with hid | hid
    · exact h.live id hid
    · exact List.mem_singleton.mp hid ▸ hlive
  behind := Behind.snoc h.behind hfed

theorem Explored.linear {explored : List RegionId} (h : f.Explored explored)
    (hall : ∀ id, id ∈ f.regionIds → id ∈ explored) : f.Linear explored.reverse := by
  refine ⟨(List.reverse_perm explored).trans ?_, ?_⟩
  · exact (List.perm_ext_iff_of_nodup h.nodup f.nodup_regionIds).mpr fun id => ⟨h.live id, hall id⟩
  · intro before id after heq p hp
    have heq' : explored = after.reverse ++ id :: before.reverse := by
      have := congrArg List.reverse heq
      simpa using this
    have hnodup := h.nodup
    rw [heq', List.nodup_append] at hnodup
    -- in front of `id`, or at its place, `p` would have `id` in front of it
    have hmem := hall p hp.live.1
    rw [heq', List.mem_append, List.mem_cons] at hmem
    rcases hmem with hmem | rfl | hmem
    · obtain ⟨a, b, hab⟩ := List.append_of_mem hmem
      have hid := h.behind a p (b ++ id :: before.reverse) (by rw [heq', hab]; simp) id hp
      exact absurd rfl (hnodup.2.2 id (by rw [hab]; simp [hid]) id (by simp))
    · have hid := h.behind _ p _ heq' p hp
      exact absurd rfl (hnodup.2.2 p hid p (by simp))
    · simpa using hmem

theorem Walk.length_le {path : List RegionId} (h : f.Walk path) : path.length ≤ f.regionIds.length :=
  (List.subperm_of_subset h.nodup h.live).length_le

theorem Walk.snoc {path : List RegionId} {node next : RegionId} (h : f.Walk (path ++ [node]))
    (hfeeds : f.Feeds node next) (hnew : next ∉ path ++ [node]) : f.Walk (path ++ [node] ++ [next]) where
  nodup := by simpa using List.Nodup.concat hnew h.nodup
  live id hid := by
    rcases List.mem_append.mp hid with hid | hid
    · exact h.live id hid
    · exact List.mem_singleton.mp hid ▸ hfeeds.live.2
  chain := h.chain.append (.singleton next) (by simpa using hfeeds)

/-- A walk whose last region feeds one of its own closes a cycle there. -/
theorem Walk.ring {path : List RegionId} {node next : RegionId} (h : f.Walk (path ++ [node]))
    (hfeeds : f.Feeds node next) (hmem : next ∈ path ++ [node]) :
    f.Ring ((path ++ [node]).dropWhile (· ≠ next)) := by
  have hlast : (path ++ [node]).getLast? = some node := by simp
  obtain ⟨before, after, heq⟩ := List.append_of_mem hmem
  have hnodup := h.nodup
  have hchain := h.chain
  rw [heq] at hlast hnodup hchain
  obtain ⟨_, hsuffix, hdisj⟩ := List.nodup_append.mp hnodup
  have hdrop : (path ++ [node]).dropWhile (· ≠ next) = next :: after := by
    rw [heq, List.dropWhile_append_of_pos]
    · simp
    · intro a ha
      simpa using fun he : a = next => hdisj a ha next (by simp) he
  rw [hdrop]
  refine ⟨by simp, hsuffix, ?_, node, ?_, ?_⟩
  · intro id hid
    apply h.live
    rw [heq]
    exact List.mem_append_right before hid
  · rwa [List.getLast?_append_of_ne_nil _ (by simp)] at hlast
  · exact List.isChain_cons_cons.mpr ⟨hfeeds, hchain.right_of_append⟩

theorem searched_foldlM {path : List RegionId}
    {step : List RegionId → RegionId → Except (List RegionId) (List RegionId)} {targets : List RegionId}
    (hstep : ∀ explored next, next ∈ targets → f.Explored explored → (∀ id, id ∈ path → id ∉ explored) →
      f.Searched path explored [next] (step explored next))
    {explored : List RegionId} (hexp : f.Explored explored) (hpath : ∀ id, id ∈ path → id ∉ explored) :
    f.Searched path explored targets (targets.foldlM step explored) := by
  induction targets generalizing explored with
  | nil => exact ⟨hexp, fun _ h => h, by simp, hpath⟩
  | cons next targets ih =>
    rw [List.foldlM_cons]
    have hnext := hstep explored next (by simp) hexp hpath
    cases hs : step explored next with
    | error cycle =>
      rw [hs] at hnext
      exact hnext
    | ok found =>
      rw [hs] at hnext
      obtain ⟨hfound, hkeep, htarget, hout⟩ := hnext
      have hrest := ih (fun e n hn => hstep e n (List.mem_cons_of_mem next hn)) hfound hout
      change f.Searched path explored (next :: targets) (targets.foldlM step found)
      cases hr : targets.foldlM step found with
      | error cycle =>
        rw [hr] at hrest
        exact hrest
      | ok all =>
        rw [hr] at hrest
        obtain ⟨hall, hkeep', htargets, hout'⟩ := hrest
        refine ⟨hall, fun id hid => hkeep' id (hkeep id hid), ?_, hout'⟩
        intro id hid
        rcases List.mem_cons.mp hid with rfl | hid
        · exact hkeep' id (htarget id (by simp))
        · exact htargets id hid

/-- One consumer on the way: it closes a cycle, has been left before, or is walked from. -/
def searchNext (f : Func) (fuel : Nat) (path explored : List RegionId) (next : RegionId) :
    Except (List RegionId) (List RegionId) :=
  if path.contains next then .error (path.dropWhile (· ≠ next))
  else if explored.contains next then .ok explored
  else f.searchCycle fuel path explored next

theorem searchCycle_succ (f : Func) (fuel : Nat) (path explored : List RegionId) (node : RegionId) :
    f.searchCycle (fuel + 1) path explored node =
      ((f.consumers node).foldlM (f.searchNext fuel (path ++ [node])) explored).map (· ++ [node]) := by
  rw [searchCycle]
  change ((f.consumers node).foldlM (f.searchNext fuel (path ++ [node])) explored >>=
    fun found => pure (found ++ [node])) = _
  cases (f.consumers node).foldlM (f.searchNext fuel (path ++ [node])) explored <;> rfl

/-- The walk from a region meets a cycle or leaves the region behind all that it feeds. A path holds
no region twice, so it ends before the fuel does. -/
theorem searched_searchCycle (hf : f.Sound) {fuel : Nat} {path explored : List RegionId} {node : RegionId}
    (hwalk : f.Walk (path ++ [node])) (hexp : f.Explored explored)
    (hpath : ∀ id, id ∈ path ++ [node] →
      id ∉ explored) (hfuel : f.regionIds.length < path.length + fuel) :
    f.Searched path explored [node] (f.searchCycle fuel path explored node) := by
  induction fuel generalizing path explored node with
  | zero =>
    have := hwalk.length_le
    simp only [List.length_append, List.length_singleton] at this
    omega
  | succ fuel ih =>
    have hnext : ∀ explored next, next ∈ f.consumers node → f.Explored explored →
        (∀ id, id ∈ path ++ [node] → id ∉ explored) →
        f.Searched (path ++ [node]) explored [next]
          (f.searchNext fuel (path ++ [node]) explored next) := by
      intro explored next hnext hexp hpath
      have hfeeds := (mem_consumers_iff hf).mp hnext
      unfold searchNext
      split
      · next hmem => exact hwalk.ring hfeeds (by simpa using hmem)
      · next hmem =>
        split
        · next hold => exact ⟨hexp, fun _ h => h, by simpa using hold, hpath⟩
        · next hold =>
          refine ih (hwalk.snoc hfeeds (by simpa using hmem)) hexp ?_ ?_
          · intro id hid
            rcases List.mem_append.mp hid with hid | hid
            · exact hpath id hid
            · rw [List.mem_singleton.mp hid]
              simpa using hold
          · simp only [List.length_append, List.length_singleton]
            omega
    have hconsumers := searched_foldlM hnext hexp hpath
    rw [searchCycle_succ]
    cases hfold : (f.consumers node).foldlM (f.searchNext fuel (path ++ [node])) explored with
    | error cycle =>
      rw [hfold] at hconsumers
      exact hconsumers
    | ok found =>
      rw [hfold] at hconsumers
      obtain ⟨hfound, hkeep, htargets, hout⟩ := hconsumers
      have hnode := hout node (by simp)
      refine ⟨hfound.snoc (hwalk.live node (by simp)) hnode ?_, ?_, by simp, ?_⟩
      · exact fun c hc => htargets c ((mem_consumers_iff hf).mpr hc)
      · exact fun id hid => List.mem_append_left _ (hkeep id hid)
      · intro id hid hmem
        rcases List.mem_append.mp hmem with hmem | hmem
        · exact hout id (List.mem_append_left _ hid) hmem
        · exact (List.nodup_append.mp hwalk.nodup).2.2 id hid id hmem rfl

theorem findCycle?_cases (hf : f.Sound) :
    (∃ cycle, f.findCycle? = some cycle ∧ f.Ring cycle) ∨ ∃ order, f.Linear order := by
  have hwalk : f.Searched [] [] f.regionIds (f.regionIds.foldlM (fun explored id =>
      if explored.contains id then .ok explored
      else f.searchCycle (f.regionIds.length + 1) [] explored id) []) := by
    apply searched_foldlM _ explored_nil (by simp)
    intro explored id hid hexp _
    split
    · next hold => exact ⟨hexp, fun _ h => h, by simpa using hold, by simp⟩
    · next hold =>
      have hstart : f.Walk ([] ++ [id]) := ⟨by simp, by simpa using hid, by simp⟩
      exact searched_searchCycle hf hstart hexp (by simpa using hold) (by simp)
  simp only [findCycle?]
  generalize f.regionIds.foldlM (m := Except (List RegionId)) _ _ = answer at hwalk ⊢
  cases answer with
  | error cycle => exact .inl ⟨cycle, rfl, hwalk⟩
  | ok found => exact .inr ⟨_, hwalk.1.linear hwalk.2.2.1⟩

end Search

theorem lex_of_order {f : Func} {order other : List RegionId} (ho : f.order = .ok order)
    (hother : f.Ordered other) : other = order ∨ List.Lex (· < ·) order other := by
  obtain ⟨hplace, hlen⟩ := order_eq_ok_iff.mp ho
  have hnil : f.Ordered ([] ++ other) := hother
  have hlex := hnil.lex_placeReady
  rw [hother.perm.length_eq, hplace, List.nil_append] at hlex
  exact hlex.imp Eq.symm id

theorem forall₂_names {f : Func} {ids : List RegionId} (h : ∀ id, id ∈ ids → id ∈ f.regionIds) :
    List.Forall₂ (fun id name => (f.region? id).map (·.name) = some name) ids
      (ids.map fun id => ((f.region? id).map (·.name)).getD "") := by
  rw [List.forall₂_map_right_iff, List.forall₂_same]
  intro id hid
  obtain ⟨r, hr⟩ := mem_regionIds.mp (h id hid)
  simp [hr]

/-- Without an order a cycle is reported, with its regions and their names. -/
theorem ring_of_order_error {f : Func} (hf : f.Sound) {e : Failure} (h : f.order = .error e) :
    ∃ first rest, f.Ring (first :: rest) ∧ e = .cyclic first (first :: rest)
      ((first :: rest).map fun id => ((f.region? id).map (·.name)).getD "") := by
  rcases findCycle?_cases hf with ⟨cycle, hcycle, hring⟩ | ⟨order, horder⟩
  · cases cycle with
    | nil => exact absurd rfl hring.nonempty
    | cons first rest =>
      refine ⟨first, rest, hring, ?_⟩
      rw [order_eq_placeReady, hcycle] at h
      split at h
      · cases h
      · simpa [stuckFailure] using h.symm
  · obtain ⟨found, hfound⟩ := ((linear_iff_ordered hf).mp horder).exists_order
    rw [hfound] at h
    cases h

theorem exists_order_iff {f : Func} (hf : f.Sound) : (∃ order, f.order = .ok order) ↔ f.Acyclic := by
  constructor
  · rintro ⟨order, ho⟩
    exact ((linear_iff_ordered hf).mpr (ordered_of_order ho)).acyclic
  · intro hacyclic
    cases ho : f.order with
    | ok order => exact ⟨order, rfl⟩
    | error e =>
      obtain ⟨first, rest, hring, _⟩ := ring_of_order_error hf ho
      exact absurd hacyclic hring.not_acyclic

/-- Ordering is exact. A valid function has an order just when its graph of regions has no cycle;
the order lists every region that is there once and behind those that feed it, and is the lowest of
all such lists. Otherwise a cycle is reported: distinct regions that are there, each feeding the
next and the last one the first, with their names, so that the report has a diagnostic. -/
theorem order_exact {f : Func} (hf : f.verified = .ok ()) :
    ((∃ order, f.order = .ok order) ↔ f.Acyclic) ∧
    (∀ order, f.order = .ok order → f.Linear order ∧
      ∀ other, f.Linear other → other = order ∨ List.Lex (· < ·) order other) ∧
    ∀ e, f.order = .error e → ∃ first rest name names, e = .cyclic first (first :: rest) (name :: names) ∧
      f.Ring (first :: rest) ∧
      List.Forall₂ (fun id name => (f.region? id).map (·.name) = some name) (first :: rest)
        (name :: names) ∧
      ∀ function, ∃ d, e.diagnostic? function = some d ∧ d.subject = some (.region first name) := by
  have hs := sound_of_verified hf
  refine ⟨exists_order_iff hs, ?_, ?_⟩
  · intro order ho
    refine ⟨(linear_iff_ordered hs).mpr (ordered_of_order ho), fun other hother => ?_⟩
    exact lex_of_order ho ((linear_iff_ordered hs).mp hother)
  · intro e he
    obtain ⟨first, rest, hring, rfl⟩ := ring_of_order_error hs he
    exact ⟨first, rest, _, _, rfl, hring, forall₂_names hring.live, fun function => ⟨_, rfl, rfl⟩⟩

/-- Both results of the first region go into the second, the third leads back, and the fourth stands
outside. -/
def entangled : Func where
  name := "entangled"
  rank := 1
  buffers := []
  temps := [none, some ⟨"s", .f64, 1, 0, .unknown⟩, some ⟨"t", .f64, 1, 1, .unknown⟩,
    some ⟨"u", .f64, 2, 0, .unknown⟩, some ⟨"v", .f64, 3, 0, .unknown⟩, some ⟨"w", .f64, 4, 0, .unknown⟩]
  regions :=
    [none,
     some ⟨"split", [.temp 4], .ofOps [.access 0 [0], .unary .neg 0] [0, 1], none, [1, 2], .unknown⟩,
     some ⟨"sum", [.temp 1, .temp 2], .ofOps [.access 0 [0], .access 1 [1], .binary .add 0 1] [2],
       none, [3], .unknown⟩,
     some ⟨"back", [.temp 3], .ofOps [.access 0 [0]] [0], none, [4], .unknown⟩,
     some ⟨"out", [.temp 4], .ofOps [.access 0 [0]] [0], none, [5], .unknown⟩]
  outputs := [⟨5, ⟨[0], [4]⟩⟩]
  stamp := none

/-- The same regions when the third reads nothing, and so comes before those that stand in front of it. -/
def disentangled : Func :=
  { entangled with
    regions :=
      entangled.regions.set 3 (some ⟨"back", [], .ofOps [.index 0 [0]] [0], none, [4], .unknown⟩) }

theorem order_exact_entangled :
    entangled.verified = .ok () ∧
      entangled.order = .error (.cyclic 1 [1, 2, 3] ["split", "sum", "back"]) ∧
    ¬ entangled.Acyclic ∧ entangled.Ring [1, 2, 3] ∧
    disentangled.verified = .ok () ∧ disentangled.order = .ok [3, 1, 2, 4] ∧ disentangled.Acyclic ∧
    disentangled.Linear [3, 1, 2, 4] ∧
    ∀ other, disentangled.Linear other → other = [3, 1, 2, 4] ∨ List.Lex (· < ·) [3, 1, 2, 4] other := by
  have hbad : entangled.order = .error (.cyclic 1 [1, 2, 3] ["split", "sum", "back"]) := rfl
  have hgood : disentangled.order = .ok [3, 1, 2, 4] := rfl
  obtain ⟨hiff, _, herror⟩ := order_exact (f := entangled) rfl
  obtain ⟨hiff', hok, _⟩ := order_exact (f := disentangled) rfl
  obtain ⟨first, rest, name, names, he, hring, _⟩ := herror _ hbad
  cases he
  obtain ⟨hlinear, hlowest⟩ := hok _ hgood
  refine ⟨rfl, hbad, ?_, hring, rfl, hgood, hiff'.mp ⟨_, hgood⟩, hlinear, hlowest⟩
  intro hacyclic
  obtain ⟨order, ho⟩ := hiff.mpr hacyclic
  rw [hbad] at ho
  cases ho

end Stencil.Func
