import Stencil.Inlining
import Stencil.Proofs.Evaluation

/-! What it takes for a region to be spliced: one access of one other region is the only use of its
results. -/

set_option autoImplicit false

namespace Stencil

def Region.part (r : Region) (inEpilogue : Bool) : Option Body :=
  if inEpilogue then r.epilogue else some r.body

def Region.partBox (r : Region) (inEpilogue : Bool) (domain : Box) : Box :=
  if inEpilogue then r.tailBox domain else r.mainBox domain

theorem Region.mem_bodies_iff {r : Region} {b : Body} :
    b ∈ r.bodies ↔ ∃ inEpilogue, r.part inEpilogue = some b := by
  simp only [bodies, List.mem_cons, Option.mem_toList, Bool.exists_bool, part]
  simp [eq_comm]

theorem Region.mem_runs_iff {r : Region} {d : Box} {b : Body} {base : Box} :
    (b, base) ∈ r.runs d ↔ ∃ inEpilogue, r.part inEpilogue = some b ∧ base = r.partBox inEpilogue d := by
  rw [mem_runs]
  simp only [Bool.exists_bool, part, partBox]
  simp [eq_comm]

namespace Func

theorem mem_bodyUses {t : TempId} {id : RegionId} {r : Region} {flag : Bool} {b : Body} {u : Use} :
    u ∈ bodyUses t id r flag b ↔ ∃ v s o, b.ops[v]? = some (.access s o) ∧
      r.operands[s]? = some (.temp t) ∧ u = .access id v flag := by
  simp only [bodyUses, List.mem_map, List.mem_filter, decide_eq_true_eq]
  constructor
  · rintro ⟨a, ⟨ha, hs⟩, rfl⟩
    exact ⟨a.value, a.slot, a.offset, Body.mem_accesses.mp ha, hs, rfl⟩
  · rintro ⟨v, s, o, hop, hs, rfl⟩
    exact ⟨⟨v, s, o⟩, ⟨Body.mem_accesses.mpr hop, hs⟩, rfl⟩

theorem mem_regionUses {t : TempId} {id : RegionId} {r : Region} {u : Use} :
    u ∈ regionUses t id r ↔ ∃ flag b v s o, r.part flag = some b ∧ b.ops[v]? = some (.access s o) ∧
      r.operands[s]? = some (.temp t) ∧ u = .access id v flag := by
  simp only [regionUses, List.mem_append, List.mem_flatMap, Option.mem_toList, mem_bodyUses]
  constructor
  · rintro (⟨v, s, o, h⟩ | ⟨e, he, v, s, o, h⟩)
    · exact ⟨false, r.body, v, s, o, rfl, h⟩
    · exact ⟨true, e, v, s, o, he, h⟩
  · rintro ⟨flag, b, v, s, o, hb, h⟩
    cases flag with
    | false =>
      cases hb
      exact .inl ⟨v, s, o, h⟩
    | true => exact .inr ⟨b, hb, v, s, o, h⟩

theorem mem_uses {f : Func} {t : TempId} {u : Use} :
    u ∈ f.uses t ↔
      (∃ id r flag b v s o, f.region? id = some r ∧ r.part flag = some b ∧
        b.ops[v]? = some (.access s o) ∧ r.operands[s]? = some (.temp t) ∧ u = .access id v flag) ∨
      ∃ (i : Nat) (o : OutputMark), f.outputs[i]? = some o ∧ o.temp = t ∧ u = .output i := by
  simp only [uses, List.mem_append, List.mem_flatMap, mem_regionUses]
  apply or_congr
  · constructor
    · rintro ⟨⟨id, r⟩, hr, flag, b, v, s, o, h⟩
      exact ⟨id, r, flag, b, v, s, o, mem_liveRegions.mp hr, h⟩
    · rintro ⟨id, r, flag, b, v, s, o, hr, h⟩
      exact ⟨(id, r), mem_liveRegions.mpr hr, flag, b, v, s, o, h⟩
  · simp only [outputUses, List.mem_filterMap, List.mem_mapIdx]
    constructor
    · rintro ⟨x, ⟨i, hi, rfl⟩, h⟩
      simp only [Option.ite_none_right_eq_some, Option.some.injEq] at h
      exact ⟨i, f.outputs[i], List.getElem?_eq_getElem hi, h.1, h.2.symm⟩
    · rintro ⟨i, o, ho, rfl, rfl⟩
      obtain ⟨hi, rfl⟩ := List.getElem?_eq_some_iff.mp ho
      exact ⟨(i, f.outputs[i]), ⟨i, hi, rfl⟩, by simp⟩

end Func

namespace Inlining

theorem mem_resultUses {f : Func} {r : Region} {i : Nat} {u : Use} :
    (i, u) ∈ resultUses f r ↔ ∃ t, r.results[i]? = some t ∧ u ∈ f.uses t := by
  simp only [resultUses, List.mem_flatten, List.mem_mapIdx]
  constructor
  · rintro ⟨l, ⟨j, hj, rfl⟩, hm⟩
    obtain ⟨u', hu, he⟩ := List.mem_map.mp hm
    cases he
    exact ⟨r.results[i], List.getElem?_eq_getElem hj, hu⟩
  · rintro ⟨t, ht, hu⟩
    obtain ⟨hi, rfl⟩ := List.getElem?_eq_some_iff.mp ht
    exact ⟨_, ⟨i, hi, rfl⟩, List.mem_map.mpr ⟨u, hu, rfl⟩⟩

/-- The access at `value` in a part of `consumer`, a read of the temporary `temp` at `offset`, is the
only use of the results of `producer`. -/
structure Spliceable (f : Func) (c : Candidate) (P C : Region) (B : Body) (temp : TempId) (slot : Nat)
    (offset : Offset) (dP dC : Box) : Prop where
  producer : f.region? c.producer = some P
  consumer : f.region? c.consumer = some C
  distinct : c.consumer ≠ c.producer
  result : P.results[c.resultIndex]? = some temp
  part : C.part c.inEpilogue = some B
  access : B.ops[c.value]? = some (.access slot offset)
  operand : C.operands[slot]? = some (.temp temp)
  produced : P.shape = .known dP
  consumed : C.shape = .known dC
  plain : P.unroll = none ∧ P.epilogue = none
  quiet : P.hasEffect = false
  only : ∀ id r flag b v s o t, f.region? id = some r → r.part flag = some b →
    b.ops[v]? = some (.access s o) → r.operands[s]? = some (.temp t) → t ∈ P.results →
      id = c.consumer ∧ flag = c.inEpilogue ∧ v = c.value
  unmarked : ∀ o, o ∈ f.outputs → o.temp ∉ P.results

/-- What the search for a candidate has checked. -/
theorem candidate?_cases {f : Func} {id : RegionId} {c : Candidate} (h : candidate? f id = some c) :
    ∃ P C, c.producer = id ∧ f.region? id = some P ∧ movable P = true ∧
      resultUses f P = [(c.resultIndex, .access c.consumer c.value c.inEpilogue)] ∧
      c.consumer ≠ id ∧ f.region? c.consumer = some C ∧ C.shape.isKnown = true := by
  unfold candidate? at h
  cases hP : f.region? id with
  | none => simp [hP] at h
  | some P =>
    simp only [hP] at h
    split at h
    · next hmov =>
      split at h
      · next i consumer value flag huses =>
        split at h
        · next hcond =>
          cases h
          simp only [Bool.and_eq_true, decide_eq_true_eq, Option.any_eq_true] at hcond
          obtain ⟨hne, C, hC, hknown⟩ := hcond
          exact ⟨P, C, rfl, rfl, hmov, huses, hne, hC, hknown⟩
        · cases h
      · cases h
    · cases h

theorem exists_of_isKnown {s : Shape} (h : s.isKnown = true) : ∃ d, s = .known d := by
  cases s with
  | unknown => cases h
  | known d => exact ⟨d, rfl⟩

theorem spliceable_of_candidate {f : Func} {id : RegionId} {c : Candidate}
    (h : candidate? f id = some c) :
    ∃ P C B temp slot offset dP dC, Spliceable f c P C B temp slot offset dP dC := by
  obtain ⟨P, C, rfl, hP, hmov, huses, hne, hC, hCknown⟩ := candidate?_cases h
  simp only [movable, Bool.and_eq_true, Bool.not_eq_true', Option.isNone_iff_eq_none] at hmov
  obtain ⟨⟨⟨hknown, hquiet⟩, hunroll⟩, hepi⟩ := hmov
  obtain ⟨dP, hdP⟩ := exists_of_isKnown hknown
  obtain ⟨dC, hdC⟩ := exists_of_isKnown hCknown
  have hall : ∀ t, t ∈ P.results → ∀ u, u ∈ f.uses t →
      u = .access c.consumer c.value c.inEpilogue := by
    intro t ht u hu
    obtain ⟨j, hj⟩ := List.mem_iff_getElem?.mp ht
    have hm := mem_resultUses.mpr ⟨t, hj, hu⟩
    rw [huses, List.mem_singleton] at hm
    exact (Prod.mk.inj hm).2
  have hself : (c.resultIndex, Use.access c.consumer c.value c.inEpilogue) ∈ resultUses f P := by
    rw [huses]
    simp
  obtain ⟨temp, htemp, huse⟩ := mem_resultUses.mp hself
  rcases Func.mem_uses.mp huse with ⟨id, r, flag, b, v, s, o, hr, hb, hop, hs, he⟩ | ⟨_, _, _, _, he⟩
  · obtain ⟨rfl, rfl, rfl⟩ := Use.access.inj he
    rw [hC] at hr
    cases hr
    refine ⟨P, C, b, temp, s, o, dP, dC, hP, hC, hne, htemp, hb, hop, hs, hdP, hdC,
      ⟨hunroll, hepi⟩, hquiet, ?_, ?_⟩
    · intro id' r' flag' b' v' s' o' t hr' hb' hop' hs' ht
      have hu := hall t ht _ (Func.mem_uses.mpr
        (.inl ⟨id', r', flag', b', v', s', o', hr', hb', hop', hs', rfl⟩))
      obtain ⟨hid, hv, hflag⟩ := Use.access.inj hu
      exact ⟨hid, hflag, hv⟩
    · intro o ho ht
      obtain ⟨k, hk⟩ := List.mem_iff_getElem?.mp ho
      have hu := hall o.temp ht _ (Func.mem_uses.mpr (.inr ⟨k, o, hk, rfl, rfl⟩))
      cases hu
  · cases he

end Inlining

end Stencil
