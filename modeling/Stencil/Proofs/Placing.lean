import Stencil.Graph
import Stencil.Proofs.Func

/-! Placing regions by counting. How many producers a region still waits for, and which regions wait
for none, is kept up to date from step to step; at every step it is what the regions that are placed
make it, so the region placed next is always the lowest one that is ready. -/

set_option autoImplicit false

namespace Stencil

theorem mem_insertAscending {n m : Nat} {ns : List Nat} :
    m ∈ insertAscending n ns ↔ m = n ∨ m ∈ ns := by
  induction ns with
  | nil => simp [insertAscending]
  | cons k ns ih =>
    unfold insertAscending
    split
    · simp
    · split
      · rename_i hk
        subst hk
        simp
      · simp only [List.mem_cons, ih]
        constructor
        · rintro (h | h | h)
          · exact .inr (.inl h)
          · exact .inl h
          · exact .inr (.inr h)
        · rintro (h | h | h)
          · exact .inr (.inl h)
          · exact .inl h
          · exact .inr (.inr h)

theorem mem_ascending {m : Nat} {ns : List Nat} : m ∈ ascending ns ↔ m ∈ ns := by
  induction ns with
  | nil => simp [ascending]
  | cons n ns ih =>
    rw [ascending, List.foldr_cons, mem_insertAscending, List.mem_cons, ← ascending, ih]

theorem pairwise_insertAscending (n : Nat) {ns : List Nat} (h : ns.Pairwise (· < ·)) :
    (insertAscending n ns).Pairwise (· < ·) := by
  induction ns with
  | nil => exact List.pairwise_singleton _ n
  | cons m ns ih =>
    obtain ⟨hm, hns⟩ := List.pairwise_cons.mp h
    unfold insertAscending
    split
    · next hlt =>
      refine List.pairwise_cons.mpr ⟨fun k hk => ?_, h⟩
      rcases List.mem_cons.mp hk with rfl | hk
      · exact hlt
      · exact Nat.lt_trans hlt (hm k hk)
    · split
      · exact h
      · refine List.pairwise_cons.mpr ⟨fun k hk => ?_, ih hns⟩
        rcases mem_insertAscending.mp hk with rfl | hk
        · omega
        · exact hm k hk

theorem pairwise_ascending (ns : List Nat) : (ascending ns).Pairwise (· < ·) := by
  induction ns with
  | nil => exact .nil
  | cons n ns ih => exact pairwise_insertAscending n ih

theorem insertAscending_of_lt {n : Nat} {ns : List Nat} (h : ∀ m, m ∈ ns → n < m) :
    insertAscending n ns = n :: ns := by
  cases ns with
  | nil => rfl
  | cons m ns => rw [insertAscending, if_pos (h m List.mem_cons_self)]

theorem ascending_eq_self {ns : List Nat} (h : ns.Pairwise (· < ·)) : ascending ns = ns := by
  induction ns with
  | nil => rfl
  | cons n ns ih =>
    obtain ⟨hn, hns⟩ := List.pairwise_cons.mp h
    rw [ascending, List.foldr_cons, ← ascending, ih hns, insertAscending_of_lt hn]

theorem insertAscending_filter {n : Nat} {ns : List Nat} (h : ns.Pairwise (· < ·)) (hn : n ∈ ns)
    (c : Nat → Bool) :
    insertAscending n (ns.filter c) = ns.filter fun m => m = n || c m := by
  induction ns with
  | nil => cases hn
  | cons m ns ih =>
    obtain ⟨hm, hns⟩ := List.pairwise_cons.mp h
    rcases List.mem_cons.mp hn with rfl | hn
    · -- the members behind `n` are higher, so it comes first among the chosen ones
      have hrest : ns.filter (fun m => m = n || c m) = ns.filter c := by
        refine List.filter_congr fun k hk => ?_
        have := hm k hk
        simp [show k ≠ n by omega]
      have hall : (n :: ns).filter (fun m => m = n || c m) = n :: ns.filter c := by
        rw [List.filter_cons_of_pos (by simp), hrest]
      rw [hall, List.filter_cons]
      split
      · rw [insertAscending, if_neg (Nat.lt_irrefl n), if_pos rfl]
      · exact insertAscending_of_lt fun k hk => hm k (List.mem_filter.mp hk).1
    · have hlt := hm n hn
      rw [List.filter_cons, List.filter_cons, ← ih hns hn]
      split
      · next hc =>
        rw [insertAscending, if_neg (by omega), if_neg (by omega), if_pos (by simp [hc])]
      · next hc => rw [if_neg (by simp [hc]; omega)]

namespace Func

theorem nodup_producers (f : Func) (id : RegionId) : (f.producers id).Nodup := by
  unfold producers
  split
  · exact List.nodup_nil
  · exact (pairwise_ascending _).imp Nat.ne_of_lt

theorem pairwise_regionIds (f : Func) : f.regionIds.Pairwise (· < ·) := by
  rw [regionIds_eq]
  exact List.pairwise_lt_range.filter _

theorem lookup_cons_ite {β : Type} (k k' : Nat) (v : β) (entries : List (Nat × β)) :
    ((k', v) :: entries).lookup k = if k = k' then some v else entries.lookup k := by
  rw [List.lookup_cons]
  by_cases h : k = k'
  · simp [h]
  · rw [if_neg h, beq_eq_false_iff_ne.mpr h]

theorem lookup_map_pair {β : Type} (g : Nat → β) (k : Nat) (ks : List Nat) :
    (ks.map fun k => (k, g k)).lookup k = if k ∈ ks then some (g k) else none := by
  induction ks with
  | nil => rfl
  | cons k' ks ih =>
    rw [List.map_cons, lookup_cons_ite, ih]
    by_cases h : k = k' <;> simp [h]

theorem insertAscending_eq_append {n : Nat} {ns : List Nat} (h : ∀ m, m ∈ ns → m < n) :
    insertAscending n ns = ns ++ [n] := by
  induction ns with
  | nil => rfl
  | cons m ns ih =>
    have hm := h m List.mem_cons_self
    rw [insertAscending, if_neg (by omega), if_neg (by omega),
      ih fun k hk => h k (List.mem_cons_of_mem _ hk), List.cons_append]

theorem lookup_enter (p : RegionId) (c : Option RegionId) (m : List (RegionId × List RegionId))
    (k : RegionId) :
    ((enter p c m).lookup k).getD [] =
      if k = p then c.elim ((m.lookup p).getD []) (fun c => insertAscending c ((m.lookup p).getD []))
      else (m.lookup k).getD [] := by
  induction m with
  | nil =>
    rw [enter, lookup_cons_ite]
    split <;> cases c <;> rfl
  | cons e m ih =>
    obtain ⟨q, ids⟩ := e
    unfold enter
    split
    · next hpq =>
      subst hpq
      simp only [lookup_cons_ite, if_true]
      split <;> rfl
    · next hpq =>
      simp only [lookup_cons_ite, if_neg hpq]
      by_cases hk : k = q
      · rw [if_pos hk, if_pos hk, if_neg fun h => hpq (h.symm.trans hk)]
      · rw [if_neg hk, if_neg hk, ih]

theorem lookup_link {f : Func} {entries : List (RegionId × List RegionId)} {before : List RegionId}
    {id : RegionId}
    (h : ∀ k, (entries.lookup k).getD [] = before.filter fun r => (f.producers r).contains k)
    (hid : ∀ r, r ∈ before → r < id) (k : RegionId) :
    ((f.link entries id).lookup k).getD [] = (before ++ [id]).filter fun r =>
      (f.producers r).contains k := by
  -- among the producers linked by then, those in `ps` are still to come
  have hfold : ∀ (ps : List RegionId) (m : List (RegionId × List RegionId)), ps.Nodup →
      (∀ p, p ∈ ps → (m.lookup p).getD [] = before.filter fun r => (f.producers r).contains p) →
      ((ps.foldl (fun m p => enter p (some id) m) m).lookup k).getD [] =
        (m.lookup k).getD [] ++ if k ∈ ps then [id] else [] := by
    intro ps
    induction ps with
    | nil => intro m _ _; simp
    | cons p ps ih =>
      intro m hps hm
      obtain ⟨hp, hps⟩ := List.nodup_cons.mp hps
      rw [List.foldl_cons, ih _ hps, lookup_enter]
      · by_cases hk : k = p
        · subst hk
          rw [if_pos rfl, if_neg hp, if_pos List.mem_cons_self, hm k List.mem_cons_self]
          rw [Option.elim_some, insertAscending_eq_append, List.append_nil]
          intro r hr
          exact hid r (List.mem_filter.mp hr).1
        · simp [hk]
      · intro q hq
        rw [lookup_enter, if_neg (fun hqp : q = p => hp (hqp ▸ hq))]
        exact hm q (List.mem_cons_of_mem _ hq)
  have hfirst : ∀ k, ((enter id none entries).lookup k).getD [] =
      before.filter fun r => (f.producers r).contains k := by
    intro k
    rw [lookup_enter, ← h k]
    split
    · next hk => rw [hk, Option.elim_none]
    · rfl
  rw [link, hfold _ _ (nodup_producers f id) fun p _ => hfirst p, hfirst, List.filter_append]
  simp [List.filter_cons]

theorem lookup_consumerMap (f : Func) (k : RegionId) :
    (f.consumerMap.lookup k).getD [] = f.consumers k := by
  have hfold : ∀ (ids before : List RegionId) (m : List (RegionId × List RegionId)),
      (before ++ ids).Pairwise (· < ·) →
      (∀ k, (m.lookup k).getD [] = before.filter fun r => (f.producers r).contains k) →
      ((ids.foldl f.link m).lookup k).getD [] = (before ++ ids).filter fun r =>
        (f.producers r).contains k := by
    intro ids
    induction ids with
    | nil => intro before m _ hm; rw [List.append_nil]; exact hm k
    | cons id ids ih =>
      intro before m hsorted hm
      have hbefore : ∀ r, r ∈ before → r < id := fun r hr =>
        (List.pairwise_append.mp hsorted).2.2 r hr id List.mem_cons_self
      rw [List.foldl_cons,
        ih (before ++ [id]) _ (by simpa using hsorted) fun k => lookup_link hm hbefore k]
      simp
  exact hfold f.regionIds [] [] f.pairwise_regionIds fun k => rfl

/-- A region that is not placed and waits for no producer. -/
def isReady (f : Func) (placed : List RegionId) (r : RegionId) : Bool :=
  !placed.contains r && (f.producers r).all placed.contains

def nextReady? (f : Func) (placed : List RegionId) : Option RegionId :=
  f.regionIds.find? (f.isReady placed)

/-- Places the lowest ready region as long as there is one, looking at all regions each time. -/
def placeReady (f : Func) : Nat → List RegionId → List RegionId
  | 0, placed => placed
  | fuel + 1, placed =>
    match f.nextReady? placed with
    | none => placed
    | some r => placeReady f fuel (placed ++ [r])

/-- How many producers of the region are not placed. -/
def waits (f : Func) (placed : List RegionId) (r : RegionId) : Nat :=
  ((f.producers r).filter fun p => !placed.contains p).length

/-- The counts and the ready regions that belong to the regions that are placed. -/
def standing (f : Func) (placed : List RegionId) : Placing where
  indegree := f.regionIds.map fun r => (r, f.waits placed r)
  ready := f.regionIds.filter (f.isReady placed)
  placed := placed

theorem waits_eq_zero_iff {f : Func} {placed : List RegionId} {r : RegionId} :
    f.waits placed r = 0 ↔ (f.producers r).all placed.contains = true := by
  rw [waits, List.length_eq_zero_iff, List.filter_eq_nil_iff, List.all_eq_true]
  simp

theorem isReady_iff {f : Func} {placed : List RegionId} {r : RegionId} :
    f.isReady placed r = true ↔ r ∉ placed ∧ f.waits placed r = 0 := by
  rw [isReady, Bool.and_eq_true, ← waits_eq_zero_iff]
  simp

theorem waits_snoc {f : Func} {placed : List RegionId} {id : RegionId} (hid : id ∉ placed)
    (r : RegionId) :
    f.waits (placed ++ [id]) r = f.waits placed r - if (f.producers r).contains id then 1 else 0 := by
  have hrest : (f.producers r).filter (fun p => !(placed ++ [id]).contains p) =
      ((f.producers r).filter fun p => !placed.contains p).erase id := by
    rw [List.Nodup.erase_eq_filter ((nodup_producers f r).filter _), List.filter_filter]
    refine List.filter_congr fun p _ => ?_
    by_cases hp : p = id <;> simp [hp]
  rw [waits, hrest, waits, List.length_erase]
  have hmem : id ∈ (f.producers r).filter (fun p => !placed.contains p) ↔
      (f.producers r).contains id = true := by
    simp [hid]
  split
  · next h => rw [if_pos (hmem.mp h)]
  · next h => rw [if_neg fun hc => h (hmem.mpr hc), Nat.sub_zero]

theorem waits_pos {f : Func} {placed : List RegionId} {id r : RegionId} (hid : id ∉ placed)
    (h : (f.producers r).contains id = true) : 0 < f.waits placed r := by
  rw [Nat.pos_iff_ne_zero]
  intro hzero
  have hall := List.all_eq_true.mp (waits_eq_zero_iff.mp hzero) id (List.contains_iff_mem.mp h)
  exact hid (List.contains_iff_mem.mp hall)

/-- On the way from the regions `placed` to those and `id`: the regions of `done` know of `id`. -/
def midway (f : Func) (placed : List RegionId) (id : RegionId) (done : List RegionId) : Placing where
  indegree := f.regionIds.map fun r => (r, f.waits (if done.contains r then placed ++ [id] else placed) r)
  ready := f.regionIds.filter fun r =>
    if done.contains r then f.isReady (placed ++ [id]) r else f.isReady placed r && r ≠ id
  placed := placed ++ [id]

/-- What the regions that are placed need is placed. -/
def Grounded (f : Func) (placed : List RegionId) : Prop :=
  ∀ r, r ∈ placed → ∀ p, p ∈ f.producers r → p ∈ placed

section Step

variable {f : Func} {placed : List RegionId} {id : RegionId} (hgrounded : f.Grounded placed)
  (hready : f.isReady placed id = true)

include hready

theorem not_mem_of_isReady : id ∉ placed := (isReady_iff.mp hready).1

theorem producers_subset_of_isReady : ∀ p, p ∈ f.producers id → p ∈ placed := by
  rw [isReady, Bool.and_eq_true, List.all_eq_true] at hready
  intro p hp
  simpa using hready.2 p hp

theorem grounded_snoc (hgrounded : f.Grounded placed) : f.Grounded (placed ++ [id]) := by
  intro r hr p hp
  rcases List.mem_append.mp hr with hr | hr
  · exact List.mem_append_left _ (hgrounded r hr p hp)
  · rw [List.mem_singleton] at hr
    subst hr
    exact List.mem_append_left _ (producers_subset_of_isReady hready p hp)

theorem not_mem_snoc_of_mem_consumers (hgrounded : f.Grounded placed) {c : RegionId}
    (hc : id ∈ f.producers c) : c ∉ placed ++ [id] := by
  have hnew := not_mem_of_isReady hready
  rw [List.mem_append, List.mem_singleton, not_or]
  constructor
  · intro hmem
    exact hnew (hgrounded c hmem id hc)
  · rintro rfl
    exact hnew (producers_subset_of_isReady hready c hc)

theorem release_midway (hgrounded : f.Grounded placed) {done : List RegionId} {c : RegionId}
    (hc : c ∈ f.regionIds)
    (hprod : id ∈ f.producers c) (hdone : c ∉ done) :
    (f.midway placed id done).release c = f.midway placed id (done ++ [c]) := by
  have hnew := not_mem_of_isReady hready
  have hcontains : (f.producers c).contains id = true := List.contains_iff_mem.mpr hprod
  have hpos := waits_pos hnew hcontains
  have hwaits : f.waits (placed ++ [id]) c = f.waits placed c - 1 := by
    rw [waits_snoc hnew, if_pos hcontains]
  have hfree := not_mem_snoc_of_mem_consumers hready hgrounded hprod
  have hlookup : (f.midway placed id done).indegree.lookup c = some (f.waits placed c) := by
    rw [midway, lookup_map_pair fun r => f.waits (if done.contains r then placed ++ [id] else placed) r,
      if_pos hc, if_neg (by simpa using hdone)]
  have hsplit : ∀ r, (done ++ [c]).contains r = (r = c || done.contains r) := by
    intro r
    rw [Bool.or_comm]
    simp
  rw [Placing.release, hlookup]
  simp only [midway, Placing.mk.injEq, and_true]
  constructor
  · rw [List.map_map]
    refine List.map_congr_left fun r _ => ?_
    by_cases hr : r = c
    · subst hr
      simp [hwaits]
    · simp [hr]
  · -- the consumer becomes ready with its last producer, and was not ready before
    split
    · next hzero =>
      rw [insertAscending_filter f.pairwise_regionIds hc]
      refine List.filter_congr fun r _ => ?_
      by_cases hr : r = c
      · subst hr
        simpa using (isReady_iff.mpr ⟨hfree, hwaits.trans hzero⟩).symm
      · simp [hr]
    · next hzero =>
      refine List.filter_congr fun r _ => ?_
      by_cases hr : r = c
      · subst hr
        have hbefore : f.isReady placed r = false := by
          rw [Bool.eq_false_iff]
          exact fun h => Nat.ne_of_gt hpos (isReady_iff.mp h).2
        have hafter : f.isReady (placed ++ [id]) r = false := by
          rw [Bool.eq_false_iff]
          exact fun h => hzero (hwaits ▸ (isReady_iff.mp h).2)
        simp [hdone, hbefore, hafter]
      · simp [hr]

theorem foldl_release_midway (hgrounded : f.Grounded placed) {cs done : List RegionId}
    (hcs : ∀ c, c ∈ cs → c ∈ f.regionIds ∧ id ∈ f.producers c) (hnodup : (done ++ cs).Nodup) :
    cs.foldl Placing.release (f.midway placed id done) = f.midway placed id (done ++ cs) := by
  induction cs generalizing done with
  | nil => rw [List.append_nil]; rfl
  | cons c cs ih =>
    obtain ⟨hlive, hprod⟩ := hcs c List.mem_cons_self
    have hdone : c ∉ done := fun h => (List.nodup_append.mp hnodup).2.2 c h c List.mem_cons_self rfl
    rw [List.append_cons] at hnodup ⊢
    rw [List.foldl_cons, release_midway hready hgrounded hlive hprod hdone,
      ih (fun c hc => hcs c (List.mem_cons_of_mem _ hc)) hnodup]

theorem midway_consumers : f.midway placed id (f.consumers id) = f.standing (placed ++ [id]) := by
  have hnew := not_mem_of_isReady hready
  -- a live region that is no consumer does not see that `id` is placed
  have hother : ∀ r, r ∈ f.regionIds → (f.consumers id).contains r = false →
      f.waits (placed ++ [id]) r = f.waits placed r := by
    intro r hr hc
    have hno : ¬ (f.producers r).contains id = true := by
      intro h
      rw [List.contains_eq_mem, decide_eq_false_iff_not] at hc
      exact hc (List.mem_filter.mpr ⟨hr, h⟩)
    rw [waits_snoc hnew, if_neg hno, Nat.sub_zero]
  simp only [midway, standing, Placing.mk.injEq, and_true]
  constructor
  · refine List.map_congr_left fun r hr => ?_
    cases hc : (f.consumers id).contains r with
    | true => rfl
    | false => rw [hother r hr hc]; rfl
  · refine List.filter_congr fun r hr => ?_
    cases hc : (f.consumers id).contains r with
    | true => rfl
    | false =>
      rw [if_neg Bool.false_ne_true, Bool.eq_iff_iff, Bool.and_eq_true, isReady_iff, isReady_iff,
        hother r hr hc]
      simp only [List.mem_append, List.mem_singleton, not_or, ne_eq, decide_not, Bool.not_eq_true',
        decide_eq_false_iff_not]
      exact and_right_comm

end Step

/-- Where the counts stand for what is placed, placing the lowest ready region keeps them so. -/
theorem place_standing {f : Func} {placed : List RegionId} (hgrounded : f.Grounded placed) {id : RegionId}
    {rest : List RegionId} (h : (f.standing placed).ready = id :: rest) :
    ((f.consumerMap.lookup id).getD []).foldl Placing.release
      { f.standing placed with ready := rest, placed := placed ++ [id] } =
        f.standing (placed ++ [id]) := by
  have hready : f.isReady placed id = true :=
    (List.mem_filter.mp (h ▸ List.mem_cons_self : id ∈ (f.standing placed).ready)).2
  have hrest : rest = f.regionIds.filter fun r => f.isReady placed r && r ≠ id := by
    have hnodup : (id :: rest).Nodup := h ▸ f.nodup_regionIds.filter _
    obtain ⟨hid, _⟩ := List.nodup_cons.mp hnodup
    have hsplit : (id :: rest).filter (· ≠ id) = rest := by
      rw [List.filter_cons_of_neg (by simp), List.filter_eq_self]
      intro r hr
      simpa using fun he : r = id => hid (he ▸ hr)
    rw [← hsplit, ← h, standing, List.filter_filter]
    exact List.filter_congr fun r _ => Bool.and_comm _ _
  have hstart :
      { f.standing placed with ready := rest, placed := placed ++ [id] } = f.midway placed id [] := by
    rw [hrest]
    rfl
  rw [hstart, lookup_consumerMap, foldl_release_midway hready hgrounded, List.nil_append,
    midway_consumers hready]
  · intro c hc
    obtain ⟨hlive, hprod⟩ := List.mem_filter.mp hc
    exact ⟨hlive, List.contains_iff_mem.mp hprod⟩
  · exact f.nodup_regionIds.filter _

theorem nextReady?_eq_head? (f : Func) (placed : List RegionId) :
    f.nextReady? placed = (f.standing placed).ready.head? := by
  rw [nextReady?, standing, List.head?_filter]

theorem run_standing {f : Func} {placed : List RegionId} (hgrounded : f.Grounded placed) (fuel : Nat) :
    Placing.run f.consumerMap fuel (f.standing placed) = f.standing (f.placeReady fuel placed) := by
  induction fuel generalizing placed with
  | zero => rfl
  | succ fuel ih =>
    rw [Placing.run, placeReady, nextReady?_eq_head?]
    cases h : (f.standing placed).ready with
    | nil => rfl
    | cons id rest =>
      have hready : f.isReady placed id = true :=
        (List.mem_filter.mp (h ▸ List.mem_cons_self : id ∈ (f.standing placed).ready)).2
      rw [List.head?_cons]
      exact (congrArg _ (place_standing hgrounded h)).trans (ih (grounded_snoc hready hgrounded))

theorem placing_eq (f : Func) : f.placing = f.standing (f.placeReady f.regionIds.length []) := by
  have hstart : f.standing [] = ⟨f.regionIds.map fun id => (id, (f.producers id).length),
      ascending
        (((f.regionIds.map fun id => (id, (f.producers id).length)).filter fun e => e.2 = 0).map (·.1)),
        []⟩ := by
    have hwaits : ∀ id, f.waits [] id = (f.producers id).length := by
      intro id
      rw [waits, List.filter_eq_self.mpr]
      exact fun p _ => rfl
    have hsame :
        (((f.regionIds.map fun id => (id, (f.producers id).length)).filter fun e => e.2 = 0).map (·.1)) =
        f.regionIds.filter (f.isReady []) := by
      rw [List.filter_map, List.map_map]
      refine (List.map_id _).trans (List.filter_congr fun id _ => ?_)
      rw [Bool.eq_iff_iff, isReady_iff, hwaits]
      simp
    rw [hsame, ascending_eq_self (f.pairwise_regionIds.filter _), standing]
    simp only [hwaits]
  have hgrounded : f.Grounded [] := fun r hr => absurd hr List.not_mem_nil
  have hrun := run_standing hgrounded f.regionIds.length
  rw [hstart] at hrun
  rw [← hrun, placing, List.length_map]

/-- The order, with the regions placed by looking at all of them each time. -/
theorem order_eq_placeReady (f : Func) :
    f.order =
      if (f.placeReady f.regionIds.length []).length = f.regionIds.length then
        .ok (f.placeReady f.regionIds.length [])
      else .error
        (f.stuckFailure (f.standing (f.placeReady f.regionIds.length [])) (f.findCycle?.getD [])) := by
  rw [order, placing_eq]
  simp only [standing, List.length_map]

end Func

end Stencil
