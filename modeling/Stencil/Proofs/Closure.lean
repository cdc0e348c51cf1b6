import Stencil.Proofs.Inlining
import Stencil.Proofs.Obligations

/-! Operand lists under inlining. A splice removes the results of a region from the list of the region
that takes it in. Any other list that names them keeps naming them, and so a function can come out of
inlining with operands that are gone. Such an operand is never read. -/

set_option autoImplicit false

namespace Stencil

theorem Region.readsSlot_iff {r : Region} {slot : Nat} :
    r.readsSlot slot = true ↔ ∃ b o, b ∈ r.bodies ∧ .access slot o ∈ b.ops := by
  simp only [readsSlot, List.any_eq_true, Body.readsSlot, decide_eq_true_eq]
  constructor
  · rintro ⟨b, hb, a, ha, rfl⟩
    exact ⟨b, a.offset, hb, Body.exists_access_iff.mp ⟨a, ha, rfl, rfl⟩⟩
  · rintro ⟨b, o, hb, ho⟩
    obtain ⟨a, ha, hs, _⟩ := Body.exists_access_iff.mpr ho
    exact ⟨b, hb, a, ha, hs⟩

/-- The operand is listed and not read. -/
def Region.Idle (r : Region) (o : Operand) : Prop :=
  ∃ slot : Nat, r.operands[slot]? = some o ∧ r.readsSlot slot = false

def Func.Idle (f : Func) (o : Operand) : Prop := ∃ id r, f.region? id = some r ∧ r.Idle o

theorem Func.Sound.idle_of_gone {f : Func} (hf : f.Sound) {id : RegionId} {r : Region} {slot : Nat}
    {o : Operand} (hr : f.region? id = some r) (hs : r.operands[slot]? = some o)
    (hgone : f.operandLive o = false) : r.readsSlot slot = false := by
  by_contra hread
  obtain ⟨b, q, hb, hop⟩ := Region.readsSlot_iff.mp (eq_true_of_ne_false hread)
  obtain ⟨o', hs', hlive⟩ := hf.reads id r b slot q hr hb hop
  rw [hs] at hs'
  cases hs'
  rw [hgone] at hlive
  cases hlive

theorem Inference.Infers.verified {f g : Func} (h : Infers f g) : g.verified = .ok () := by
  obtain ⟨hsame, _⟩ := h.analysed
  obtain ⟨report, hok, rfl⟩ := h
  obtain ⟨_, hverified, _⟩ := run_ok hok
  exact hsame.verified hverified

namespace Inlining

theorem mem_operands_removeSlots {ks : List Nat} {r : Region} {o : Operand}
    (h : o ∈ (ks.foldl removeSlot r).operands) : o ∈ r.operands := by
  induction ks generalizing r with
  | nil => exact h
  | cons k ks ih => exact List.mem_of_mem_eraseIdx (ih h)

theorem mem_operands_mergeRegion {c : Candidate} {P C : Region} {o : Operand}
    (h : o ∈ (mergeRegion c P C).operands) : o ∈ C.operands ∨ o ∈ P.operands := by
  rw [mergeRegion_eq] at h
  obtain ⟨rest, hrest, _, hmem, _⟩ := (mergeOperands_spec C.operands P.operands).1
  have hm : o ∈ C.operands ++ rest := by
    rw [← hrest]
    exact mem_operands_removeSlots h
  rcases List.mem_append.mp hm with hm | hm
  · exact .inl hm
  · exact .inr (hmem o hm).1

theorem access_mem_removeSlot {r : Region} {k s : Nat} {o : Offset} {b : Body} (hb : b ∈ r.bodies)
    (ho : .access s o ∈ b.ops) :
    (removeSlot r k).readsSlot (if k < s then s - 1 else s) = true := by
  rw [Region.readsSlot_iff]
  refine ⟨b.dropSlot k, o, ?_, ?_⟩
  · simp only [Region.bodies, List.mem_cons, Option.mem_toList] at hb
    rcases hb with rfl | he
    · simp [Region.bodies, removeSlot]
    · simp [Region.bodies, removeSlot, he]
  · exact Body.access_mem_mapSlots.mpr ⟨s, ho, rfl⟩

theorem idle_of_removeSlots {ks : List Nat} {r : Region} {o : Operand} (hks : ks.Pairwise (· > ·))
    (h : (ks.foldl removeSlot r).Idle o) :
    ∃ slot : Nat, slot ∉ ks ∧ r.operands[slot]? = some o ∧ r.readsSlot slot = false := by
  induction ks generalizing r with
  | nil =>
    obtain ⟨slot, hs, hidle⟩ := h
    exact ⟨slot, List.not_mem_nil, hs, hidle⟩
  | cons k ks ih =>
    rw [List.pairwise_cons] at hks
    obtain ⟨slot, hnot, hs, hidle⟩ := ih hks.2 h
    -- behind the removed slot, every slot was one further on
    have hback : ∀ s, s ≠ k → (if k < s then s - 1 else s) = slot → r.readsSlot s = false := by
      intro s _ hslot
      by_contra hread
      obtain ⟨b, q, hb, hop⟩ := Region.readsSlot_iff.mp (eq_true_of_ne_false hread)
      have := access_mem_removeSlot (k := k) hb hop
      rw [hslot, hidle] at this
      cases this
    rw [show (removeSlot r k).operands = r.operands.eraseIdx k from rfl, List.getElem?_eraseIdx] at hs
    by_cases hsk : slot < k
    · rw [if_pos hsk] at hs
      refine ⟨slot, ?_, hs, hback slot (by omega) (if_neg (by omega))⟩
      rw [List.mem_cons]
      rintro (rfl | hm)
      · omega
      · exact hnot hm
    · rw [if_neg hsk] at hs
      refine ⟨slot + 1, ?_, hs, hback (slot + 1) (by omega) ?_⟩
      · rw [List.mem_cons]
        rintro (he | hm)
        · omega
        · have := hks.1 (slot + 1) hm
          omega
      · rw [if_pos (by omega), Nat.add_sub_cancel]

/-- What holds of a sound function and is kept by every splice holds when there is nothing left to
splice. -/
theorem settle_induction {Q : Func → Prop}
    (hstep : ∀ {f c P C B temp slot offset dP dC}, Spliceable f c P C B temp slot offset dP dC →
      f.Sound → Q f → Q (applySplice f c))
    {f : Func} (hf : f.Sound) (hq : Q f) (fuel : Nat) (made : List Splice) :
    (settle fuel f made).1.Sound ∧ Q (settle fuel f made).1 := by
  induction fuel generalizing f made with
  | zero => exact ⟨hf, hq⟩
  | succ fuel ih =>
    unfold settle
    cases hnext : next? f with
    | error e => exact ⟨hf, hq⟩
    | ok found =>
      cases found with
      | none => exact ⟨hf, hq⟩
      | some c =>
        obtain ⟨order, _, hfind⟩ := map_eq_ok_iff.mp hnext
        obtain ⟨id, _, hc⟩ := List.exists_of_findSome?_eq_some hfind
        obtain ⟨P, C, B, temp, slot, offset, dP, dC, S⟩ := spliceable_of_candidate hc
        exact ih (S.sound_applySplice hf) (hstep S hf hq) _

theorem run_induction {Q : Func → Prop}
    (hstep : ∀ {f c P C B temp slot offset dP dC}, Spliceable f c P C B temp slot offset dP dC →
      f.Sound → Q f → Q (applySplice f c))
    (hstamp : ∀ {f}, Q f → Q f.invalidate) {f : Func} (hf : f.Sound) (hq : Q f) :
    (run f).1.Sound ∧ Q (run f).1 := by
  unfold run
  cases f.ensureFresh "inlining" with
  | error e => exact ⟨hf, hq⟩
  | ok u =>
    have hsettle := settle_induction hstep hf hq (f.liveRegions.length + 1) []
    simp only
    generalize settle (f.liveRegions.length + 1) f [] = res at hsettle ⊢
    obtain ⟨g, made | made⟩ := res
    · exact hsettle
    · by_cases hmade : made.isEmpty = true
      · simpa [hmade] using hsettle
      · simpa [hmade] using
          ⟨hsettle.1.of_sameStructure (Func.sameStructure_invalidate g), hstamp hsettle.2⟩

section Spliceable

variable {f : Func} {c : Candidate} {P C : Region} {B : Body} {temp : TempId} {slot : Nat}
  {offset : Offset} {dP dC : Box} (S : Spliceable f c P C B temp slot offset dP dC)

include S

theorem Spliceable.exists_listing {id : RegionId} {r : Region}
    (hr : (applySplice f c).region? id = some r) {o : Operand} (ho : o ∈ r.operands) :
    ∃ id' r', f.region? id' = some r' ∧ o ∈ r'.operands := by
  obtain ⟨_, ⟨rfl, rfl⟩ | ⟨_, hr⟩⟩ := S.region_cases hr
  · rcases mem_operands_mergeRegion ho with ho | ho
    · exact ⟨c.consumer, C, S.consumer, ho⟩
    · exact ⟨c.producer, P, S.producer, ho⟩
  · exact ⟨id, r, hr, ho⟩

theorem Spliceable.idle_of_merged {s : Nat} {o : Operand}
    (hs : (merged c P C).operands[s]? = some o)
    (hnot : s ∉ slotsNaming P.results (merged c P C).operands)
    (hidle : (merged c P C).readsSlot s = false) : C.Idle o ∨ P.Idle o := by
  obtain ⟨⟨rest, hrest, _, _, honto⟩, hlen, hspec⟩ := mergeOperands_spec C.operands P.operands
  have hops : (merged c P C).operands = C.operands ++ rest := hrest
  have hlt := (List.getElem?_eq_some_iff.mp hs).1
  rw [hops, List.length_append] at hlt
  by_cases hsC : s < C.operands.length
  · refine .inl ⟨s, by rwa [hops, List.getElem?_append_left hsC] at hs, ?_⟩
    by_contra hread
    obtain ⟨b, q, hb, hop⟩ := Region.readsSlot_iff.mp (eq_true_of_ne_false hread)
    obtain ⟨flag, hflag⟩ := Region.mem_bodies_iff.mp hb
    obtain ⟨v, hv⟩ := List.mem_iff_getElem?.mp hop
    obtain ⟨b', hb'⟩ : ∃ b', (merged c P C).part flag = some b' := by
      rw [merged_part, hflag]
      exact ⟨_, rfl⟩
    refine Bool.eq_false_iff.mp hidle (Region.readsSlot_iff.mpr ⟨b', q,
      Region.mem_bodies_iff.mpr ⟨flag, hb'⟩, (S.access_merged_iff hb').mpr (.inl ⟨b, v, hflag, hv, ?_⟩)⟩)
    -- the one access that goes away is of a result of the producer
    rintro ⟨rfl, rfl⟩
    rw [S.part] at hflag
    cases hflag
    rw [S.access] at hv
    cases hv
    exact hnot (mem_slotsNaming.mpr ⟨temp, merged_operands_outer c P C S.operand,
      List.mem_of_getElem? S.result⟩)
  · obtain ⟨i, hslot⟩ := List.mem_iff_getElem?.mp (honto s (by omega) hlt)
    have hi : i < P.operands.length := hlen ▸ (List.getElem?_eq_some_iff.mp hslot).1
    refine .inr ⟨i, ?_, ?_⟩
    · obtain ⟨s', hs', ho⟩ := hspec i _ (List.getElem?_eq_getElem hi)
      rw [hslot, Option.some.injEq] at hs'
      subst hs'
      rw [List.getElem?_eq_getElem hi, ← ho]
      exact hs
    · by_contra hread
      obtain ⟨b, q, hb, hop⟩ := Region.readsSlot_iff.mp (eq_true_of_ne_false hread)
      have hbody : b = P.body := by
        simpa [Region.bodies, S.plain.2] using hb
      subst hbody
      obtain ⟨b', hb'⟩ : ∃ b', (merged c P C).part c.inEpilogue = some b' := by
        rw [merged_part, S.part]
        exact ⟨_, rfl⟩
      refine Bool.eq_false_iff.mp hidle (Region.readsSlot_iff.mpr ⟨b', _,
        Region.mem_bodies_iff.mpr ⟨_, hb'⟩,
        (S.access_merged_iff hb').mpr (.inr ⟨rfl, i, q, hop, ?_, rfl⟩)⟩)
      rw [hslot, Option.getD_some]

theorem Spliceable.idle_of_applySplice {o : Operand} (h : (applySplice f c).Idle o) : f.Idle o := by
  obtain ⟨id, r, hr, hidle⟩ := h
  obtain ⟨_, ⟨rfl, rfl⟩ | ⟨_, hr⟩⟩ := S.region_cases hr
  · rw [mergeRegion_eq] at hidle
    obtain ⟨s, hnot, hs, hread⟩ := idle_of_removeSlots
      (List.pairwise_reverse.mpr (pairwise_slotsNaming _ _)) hidle
    rcases S.idle_of_merged hs (by simpa using hnot) hread with hC | hP
    · exact ⟨_, C, S.consumer, hC⟩
    · exact ⟨_, P, S.producer, hP⟩
  · exact ⟨id, r, hr, hidle⟩

end Spliceable

/-- Inlining keeps the structure of a function but for one thing. Results keep their one producer,
values their definitions, and returns their number; operand lists stay closed just when no list still
names a temporary that was spliced away. A list that does was idle on it before and is idle on it now,
so there is none where every region reads the temporaries it lists. -/
theorem inlining_keeps_structure {f₀ f : Func} (hf : Inference.Infers f₀ f) :
    (∀ o, o ≠ .accessRank → o ≠ .operandsClosed → (run f).1.meets o = true) ∧
    ((run f).1.meets .operandsClosed = true ↔
      ∀ id r t, (run f).1.region? id = some r → .temp t ∈ r.operands →
        ((run f).1.temp? t).isSome = true) ∧
    (∀ id r (slot : Nat) t, (run f).1.region? id = some r → r.operands[slot]? = some (.temp t) →
      (run f).1.temp? t = none → r.readsSlot slot = false ∧ (f.temp? t).isSome = true ∧
        f.Idle (.temp t)) ∧
    ((∀ t, f.Idle (.temp t) → ((run f).1.temp? t).isSome = true) →
      (run f).1.meets .operandsClosed = true) := by
  obtain ⟨hsound, hclosed, _⟩ := Func.verified_iff.mp hf.verified
  -- what is listed was there at the start, and what is idle was idle
  obtain ⟨hg, hlisted, hbuffer, hidle⟩ := run_induction (f := f)
    (Q := fun g => (∀ id r o, g.region? id = some r → o ∈ r.operands → f.operandLive o = true) ∧
      (∀ b, g.buffer? b = f.buffer? b) ∧ ∀ o, g.Idle o → f.Idle o)
    (by
      rintro g c P C B temp slot offset dP dC S _ ⟨hlisted, hbuffer, hidle⟩
      refine ⟨?_, fun b => (S.applySplice_frame.2.2.1 b).trans (hbuffer b),
        fun o h => hidle o (S.idle_of_applySplice h)⟩
      intro id r o hr ho
      obtain ⟨id', r', hr', ho'⟩ := S.exists_listing hr ho
      exact hlisted id' r' o hr' ho')
    id hsound ⟨hclosed, fun _ => rfl, fun _ h => h⟩
  have hclosed_iff : (run f).1.meets .operandsClosed = true ↔
      ∀ id r t, (run f).1.region? id = some r → .temp t ∈ r.operands →
        ((run f).1.temp? t).isSome = true := by
    rw [hg.meets_operandsClosed_iff]
    constructor
    · intro h id r t hr ht
      exact h id r _ hr ht
    · intro h id r o hr ho
      cases o with
      | temp t => exact h id r t hr ho
      | buffer b =>
        rw [Func.operandLive, hbuffer]
        exact hlisted id r _ hr ho
  have hgone : ∀ id r (slot : Nat) t, (run f).1.region? id = some r →
      r.operands[slot]? = some (.temp t) → (run f).1.temp? t = none →
      r.readsSlot slot = false ∧ (f.temp? t).isSome = true ∧ f.Idle (.temp t) := by
    intro id r slot t hr hs ht
    have hread := hg.idle_of_gone hr hs (by rw [Func.operandLive, ht]; rfl)
    exact ⟨hread, hlisted id r _ hr (List.mem_of_getElem? hs), hidle _ ⟨id, r, hr, slot, hs, hread⟩⟩
  refine ⟨fun o => hg.meets_of_ne, hclosed_iff, hgone, ?_⟩
  intro hall
  rw [hclosed_iff]
  intro id r t hr ho
  rw [Option.isSome_iff_ne_none]
  intro ht
  obtain ⟨slot, hs⟩ := List.mem_iff_getElem?.mp ho
  have := hall t (hgone id r slot t hr hs ht).2.2
  rw [ht] at this
  cases this

/-- A region that is spliced into its one reader, and is listed by another region that does not
read it. -/
def lister : Func where
  name := "lister"
  rank := 1
  buffers := [⟨"in", .f64, none, .unknown⟩]
  temps := [some ⟨"p", .f64, 0, 0, .unknown⟩, some ⟨"c", .f64, 1, 0, .unknown⟩,
    some ⟨"d", .f64, 2, 0, .unknown⟩]
  regions :=
    [some ⟨"p", [.buffer 0], .ofOps [.access 0 [0]] [0], none, [0], .unknown⟩,
     some ⟨"c", [.temp 0], .ofOps [.access 0 [1]] [0], none, [1], .unknown⟩,
     some ⟨"d", [.temp 0, .buffer 0], .ofOps [.access 1 [0]] [0], none, [2], .unknown⟩]
  outputs := [⟨1, ⟨[0], [4]⟩⟩, ⟨2, ⟨[0], [4]⟩⟩]
  stamp := none

theorem inlining_keeps_structure_lister : ∃ f : Func, Inference.Infers lister f ∧
    (run f).1.regionIds = [1, 2] ∧
      (∀ o, o ≠ .accessRank → o ≠ .operandsClosed → (run f).1.meets o = true) ∧
    (run f).1.temp? 0 = none ∧ ∃ r, (run f).1.region? 2 = some r ∧ r.operands = [.temp 0, .buffer 0] ∧
      r.readsSlot 0 = false ∧ f.Idle (.temp 0) := by
  have hf : Inference.Infers lister (Inference.run lister).func := ⟨_, rfl, rfl⟩
  obtain ⟨_, _, hfa⟩ := hf.analysed
  have hrun := run_of_fresh hfa.fresh rfl
  obtain ⟨hmeets, _, hgone, _⟩ := inlining_keeps_structure hf
  obtain ⟨hids, ht, r, hr, hops⟩ : (run (Inference.run lister).func).1.regionIds = [1, 2] ∧
      (run (Inference.run lister).func).1.temp? 0 = none ∧
      ∃ r, (run (Inference.run lister).func).1.region? 2 = some r ∧
        r.operands = [.temp 0, .buffer 0] := by
    rw [hrun]
    exact ⟨rfl, rfl, _, rfl, rfl⟩
  obtain ⟨hread, _, hidle⟩ := hgone 2 r 0 0 hr (by rw [hops]; rfl) ht
  exact ⟨_, hf, hids, hmeets, ht, r, hr, hops, hread, hidle⟩

/-- Inlining does not keep operand lists closed. -/
theorem inlining_leaves_listing : ∃ f : Func, Inference.Infers lister f ∧
    f.verified = .ok () ∧ (run f).2 = .ok [⟨"p", "c"⟩] ∧ (run f).1.meets .operandsClosed = false := by
  have hf : Inference.Infers lister (Inference.run lister).func := ⟨_, rfl, rfl⟩
  obtain ⟨_, _, hfa⟩ := hf.analysed
  have hrun := run_of_fresh hfa.fresh rfl
  refine ⟨_, hf, rfl, ?_⟩
  rw [hrun]
  exact ⟨rfl, rfl⟩

end Inlining

end Stencil
