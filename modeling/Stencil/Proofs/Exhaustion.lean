import Mathlib.Data.List.Nodup
import Stencil.Proofs.Closure

/-! When inlining is done. Every use of a temporary is listed once, so the search for a candidate finds
one exactly where a region can be spliced; and each splice removes a region, so inlining goes on until
there is none. -/

set_option autoImplicit false

namespace Stencil

theorem Body.pairwise_accessesFrom (ops : List Op) (start : ValueId) :
    (accessesFrom start ops).Pairwise fun a b => a.value < b.value := by
  induction ops generalizing start with
  | nil => exact List.Pairwise.nil
  | cons op ops ih =>
    cases op with
    | access slot offset =>
      refine List.pairwise_cons.mpr ⟨?_, ih (start + 1)⟩
      intro a ha
      exact (mem_accessesFrom.mp ha).1
    | index d o => exact ih (start + 1)
    | constant c => exact ih (start + 1)
    | unary g a => exact ih (start + 1)
    | binary g l r => exact ih (start + 1)
    | call c as q => exact ih (start + 1)

namespace Func

theorem nodup_bodyUses (t : TempId) (id : RegionId) (r : Region) (flag : Bool) (b : Body) :
    (bodyUses t id r flag b).Nodup := by
  refine List.Pairwise.map _ ?_ ((Body.pairwise_accessesFrom b.ops 0).filter _)
  intro a a' hlt he
  exact absurd (Use.access.inj he).2.1 (Nat.ne_of_lt hlt)

theorem nodup_regionUses (t : TempId) (id : RegionId) (r : Region) : (regionUses t id r).Nodup := by
  refine List.nodup_append.mpr ⟨nodup_bodyUses t id r false r.body, ?_, ?_⟩
  · cases r.epilogue with
    | none => exact List.nodup_nil
    | some e => simpa using nodup_bodyUses t id r true e
  · intro u hu u' hu' he
    obtain ⟨_, _, _, _, _, rfl⟩ := mem_bodyUses.mp hu
    obtain ⟨_, _, hu'⟩ := List.mem_flatMap.mp hu'
    obtain ⟨_, _, _, _, _, rfl⟩ := mem_bodyUses.mp hu'
    cases he

theorem nodup_outputUses (f : Func) (t : TempId) : (f.outputUses t).Nodup := by
  have hidx : (f.outputs.mapIdx fun i o => (i, o)).Pairwise fun a b => a.1 < b.1 := by
    rw [List.pairwise_iff_getElem]
    intro i j hi hj hij
    simpa using hij
  refine hidx.filterMap _ ?_
  intro a a' hlt u hu u' hu' he
  simp only [Option.ite_none_right_eq_some, Option.some.injEq] at hu hu'
  rw [← hu.2, ← hu'.2] at he
  have hindex := Use.output.inj he
  omega

theorem nodup_uses (f : Func) (t : TempId) : (f.uses t).Nodup := by
  refine List.nodup_append.mpr ⟨?_, f.nodup_outputUses t, ?_⟩
  · refine List.nodup_flatMap.mpr ⟨fun r _ => nodup_regionUses t r.1 r.2, ?_⟩
    refine (List.pairwise_map.mp f.nodup_regionIds).imp ?_
    intro r r' hne u hu hu'
    obtain ⟨_, _, _, _, _, _, _, _, rfl⟩ := mem_regionUses.mp hu
    obtain ⟨_, _, _, _, _, _, _, _, he⟩ := mem_regionUses.mp hu'
    exact hne (Use.access.inj he).1
  · intro u hu u' hu' he
    obtain ⟨_, _, hu⟩ := List.mem_flatMap.mp hu
    obtain ⟨_, _, _, _, _, _, _, _, rfl⟩ := mem_regionUses.mp hu
    obtain ⟨_, _, hu'⟩ := List.mem_filterMap.mp hu'
    simp only [Option.ite_none_right_eq_some, Option.some.injEq] at hu'
    rw [← hu'.2] at he
    cases he

end Func

namespace Inlining

theorem nodup_resultUses (f : Func) (r : Region) : (resultUses f r).Nodup := by
  refine List.nodup_flatten.mpr ⟨?_, ?_⟩
  · intro l hl
    obtain ⟨i, hi, rfl⟩ := List.mem_mapIdx.mp hl
    exact (f.nodup_uses _).map fun _ _ he => (Prod.mk.inj he).2
  · rw [List.pairwise_iff_getElem]
    intro i j hi hj hij x hx hx'
    simp only [List.getElem_mapIdx, List.mem_map] at hx hx'
    obtain ⟨_, _, rfl⟩ := hx
    obtain ⟨_, _, he⟩ := hx'
    cases he
    omega

section Spliceable

variable {f : Func} {c : Candidate} {P C : Region} {B : Body} {temp : TempId} {slot : Nat}
  {offset : Offset} {dP dC : Box} (S : Spliceable f c P C B temp slot offset dP dC)

include S

theorem Spliceable.resultUses_eq (hf : f.Sound) :
    resultUses f P = [(c.resultIndex, .access c.consumer c.value c.inEpilogue)] := by
  rw [← List.perm_singleton, List.perm_ext_iff_of_nodup (nodup_resultUses f P) (List.nodup_singleton _)]
  rintro ⟨i, u⟩
  rw [mem_resultUses, List.mem_singleton, Prod.mk.injEq]
  constructor
  · rintro ⟨t, ht, hu⟩
    have hmem := List.mem_of_getElem? ht
    rcases Func.mem_uses.mp hu with ⟨id, r, flag, b, v, s, o, hr, hb, hop, hs, rfl⟩ | ⟨j, o, ho, rfl, rfl⟩
    · obtain ⟨rfl, rfl, rfl⟩ := S.only id r flag b v s o t hr hb hop hs hmem
      rw [S.consumer] at hr
      cases hr
      rw [S.part] at hb
      cases hb
      rw [S.access] at hop
      cases hop
      rw [S.operand] at hs
      cases hs
      refine ⟨?_, rfl⟩
      have hresult := S.result
      rw [← ht] at hresult
      exact ((List.getElem?_inj (List.getElem?_eq_some_iff.mp ht).1 (hf.nodup_results S.producer)).mp
        hresult.symm)
    · exact absurd hmem (S.unmarked o (List.mem_of_getElem? ho))
  · rintro ⟨rfl, rfl⟩
    exact ⟨temp, S.result, Func.mem_uses.mpr (.inl ⟨c.consumer, C, c.inEpilogue, B, c.value, slot, offset,
      S.consumer, S.part, S.access, S.operand, rfl⟩)⟩

theorem Spliceable.candidate?_eq (hf : f.Sound) : candidate? f c.producer = some c := by
  have hmovable : movable P = true := by
    simp [movable, S.produced, S.quiet, S.plain, Shape.isKnown]
  simp [candidate?, S.producer, hmovable, S.resultUses_eq hf, S.distinct, S.consumer, S.consumed,
    Shape.isKnown]

theorem Spliceable.regionIds_applySplice :
    (applySplice f c).regionIds = f.regionIds.erase c.producer := by
  obtain ⟨_, _, _, hlen⟩ := S.applySplice_frame
  rw [f.nodup_regionIds.erase_eq_filter, Func.regionIds_eq, Func.regionIds_eq, hlen, List.filter_filter]
  apply List.filter_congr
  intro id _
  rw [S.region?_applySplice]
  by_cases hp : id = c.producer
  · simp [hp]
  · by_cases hc : id = c.consumer
    · simp [hc, S.consumer, S.distinct]
    · simp [hp, hc]

theorem Spliceable.length_regionIds :
    (applySplice f c).regionIds.length + 1 = f.regionIds.length := by
  have hmem : c.producer ∈ f.regionIds := Func.mem_regionIds.mpr ⟨P, S.producer⟩
  have hpos := List.length_pos_of_mem hmem
  rw [S.regionIds_applySplice, List.length_erase_of_mem hmem]
  omega

end Spliceable

def Exhausted (f : Func) : Prop := ∀ id, candidate? f id = none

theorem Exhausted.not_spliceable {f : Func} (h : Exhausted f) (hf : f.Sound) {c : Candidate}
    {P C : Region}
    {B : Body} {temp : TempId} {slot : Nat} {offset : Offset} {dP dC : Box} :
    ¬ Spliceable f c P C B temp slot offset dP dC := by
  intro S
  have := S.candidate?_eq hf
  rw [h] at this
  cases this

theorem exhausted_of_next? {f : Func} (h : next? f = .ok none) : Exhausted f := by
  obtain ⟨order, horder, hnone⟩ := map_eq_ok_iff.mp h
  intro id
  by_cases hid : id ∈ order
  · exact List.findSome?_eq_none_iff.mp hnone id hid
  · have hr : f.region? id = none := by
      cases hr : f.region? id with
      | none => rfl
      | some r => exact absurd ((Func.ordered_of_order horder).mem_iff.mpr ⟨r, hr⟩) hid
    simp [candidate?, hr]

theorem Exhausted.next?_eq {f : Func} (h : Exhausted f) {order : List RegionId}
    (ho : f.order = .ok order) :
    next? f = .ok none := by
  have hnone : order.findSome? (candidate? f) = none := List.findSome?_eq_none_iff.mpr fun id _ => h id
  rw [next?, ho, ← hnone]
  rfl

/-- With more rounds than regions, splicing ends because nothing is left to splice. -/
theorem exhausted_settle {fuel : Nat} {f g : Func} {made made' : List Splice} (hf : f.Sound)
    (hfuel : f.regionIds.length < fuel) (h : settle fuel f made = (g, .ok made')) : Exhausted g := by
  induction fuel generalizing f made with
  | zero => omega
  | succ fuel ih =>
    unfold settle at h
    cases hnext : next? f with
    | error e => simp [hnext] at h
    | ok found =>
      cases found with
      | none =>
        simp only [hnext, Prod.mk.injEq] at h
        exact h.1 ▸ exhausted_of_next? hnext
      | some c =>
        simp only [hnext] at h
        obtain ⟨_, _, hfind⟩ := map_eq_ok_iff.mp hnext
        obtain ⟨_, _, hc⟩ := List.exists_of_findSome?_eq_some hfind
        obtain ⟨P, C, B, temp, slot, offset, dP, dC, S⟩ := spliceable_of_candidate hc
        have hlen := S.length_regionIds
        exact ih (S.sound_applySplice hf) (by omega) h

theorem exhausted_run {f : Func} (hf : f.Sound) {made : List Splice} (h : (run f).2 = .ok made) :
    Exhausted (run f).1 := by
  unfold run at h ⊢
  cases hfresh : f.ensureFresh "inlining" with
  | error e => simp [hfresh] at h
  | ok u =>
    simp only [hfresh] at h ⊢
    have hsettle : ∀ g made', settle (f.liveRegions.length + 1) f [] = (g, .ok made') → Exhausted g := by
      intro g made'
      exact exhausted_settle hf (by simp [Func.regionIds])
    generalize settle (f.liveRegions.length + 1) f [] = res at h hsettle ⊢
    obtain ⟨g, made' | made'⟩ := res
    · cases h
    · have hg : Exhausted g := hsettle g made' rfl
      simp only
      split
      · exact hg
      · exact hg

theorem Exhausted.run_eq {f : Func} (h : Exhausted f) (hfresh : f.fresh = true) {order : List RegionId}
    (ho : f.order = .ok order) : run f = (f, .ok []) := by
  have hsettle : settle (f.liveRegions.length + 1) f [] = (f, .ok []) := by
    rw [settle, h.next?_eq ho]
  rw [run_of_fresh hfresh hsettle]
  rfl

end Inlining

end Stencil
