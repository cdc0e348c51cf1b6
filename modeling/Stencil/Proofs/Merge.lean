import Stencil.Proofs.Candidate
import Stencil.Proofs.Splicing

/-! The region that takes another one in: its operands are merged, the access is spliced, and the
slots that are no longer read are closed up. -/

set_option autoImplicit false

namespace Stencil

namespace Inlining

/-- The list only grows at its end, so a slot that was given out keeps its operand. -/
theorem foldl_mergeOperands (more ops : List Operand) (slots : List Nat) : ∃ rest new,
    more.foldl (fun (acc : List Operand × List Nat) o =>
      match acc.1.idxOf? o with
      | some slot => (acc.1, acc.2 ++ [slot])
      | none => (acc.1 ++ [o], acc.2 ++ [acc.1.length])) (ops, slots) = (ops ++ rest, slots ++ new) ∧
    (rest.Nodup ∧ (∀ o, o ∈ rest → o ∈ more ∧ o ∉ ops) ∧
      ∀ s, ops.length ≤ s → s < ops.length + rest.length → s ∈ new) ∧
    new.length = more.length ∧
    ∀ (i : Nat) (o : Operand), more[i]? = some o → ∃ s, new[i]? = some s ∧
      (ops ++ rest)[s]? = some o := by
  induction more generalizing ops slots with
  | nil =>
    refine ⟨[], [], by simp, ⟨List.nodup_nil, by simp, ?_⟩, rfl, by simp⟩
    intro s hle hlt
    rw [List.length_nil] at hlt
    omega
  | cons o more ih =>
    rw [List.foldl_cons]
    cases hidx : ops.idxOf? o with
    | some slot =>
      obtain ⟨rest, new, heq, ⟨hnodup, hmem, honto⟩, hlen, hspec⟩ := ih ops (slots ++ [slot])
      have hslot : ops[slot]? = some o := by
        rw [List.idxOf?, List.findIdx?_eq_some_iff_getElem] at hidx
        obtain ⟨hlt, hbeq, _⟩ := hidx
        rw [List.getElem?_eq_getElem hlt, beq_iff_eq.mp hbeq]
      refine ⟨rest, slot :: new, by simpa [hidx] using heq, ⟨hnodup, ?_, ?_⟩, by simp [hlen], ?_⟩
      · exact fun o' ho' => ⟨List.mem_cons_of_mem _ (hmem o' ho').1, (hmem o' ho').2⟩
      · exact fun s hle hlt => List.mem_cons_of_mem _ (honto s hle hlt)
      · intro i o' ho'
        cases i with
        | zero =>
          simp only [List.getElem?_cons_zero, Option.some.injEq] at ho'
          subst ho'
          have hlt := (List.getElem?_eq_some_iff.mp hslot).1
          exact ⟨slot, rfl, by rw [List.getElem?_append_left hlt, hslot]⟩
        | succ i => simpa using hspec i o' (by simpa using ho')
    | none =>
      obtain ⟨rest, new, heq, ⟨hnodup, hmem, honto⟩, hlen, hspec⟩ :=
        ih (ops ++ [o]) (slots ++ [ops.length])
      refine ⟨o :: rest, ops.length :: new, by simpa [hidx] using heq, ⟨?_, ?_, ?_⟩, by simp [hlen], ?_⟩
      · exact List.nodup_cons.mpr ⟨fun ho => (hmem o ho).2 (by simp), hnodup⟩
      · intro o' ho'
        rcases List.mem_cons.mp ho' with rfl | ho'
        · exact ⟨List.mem_cons_self, List.idxOf?_eq_none_iff.mp hidx⟩
        · exact ⟨List.mem_cons_of_mem _ (hmem o' ho').1, fun h => (hmem o' ho').2 (by simp [h])⟩
      · intro s hle hlt
        by_cases hs : s = ops.length
        · exact hs ▸ List.mem_cons_self
        · rw [List.length_cons] at hlt
          refine List.mem_cons_of_mem _ (honto s ?_ ?_)
          · rw [List.length_append, List.length_singleton]
            omega
          · rw [List.length_append, List.length_singleton]
            omega
      · intro i o' ho'
        cases i with
        | zero =>
          simp only [List.getElem?_cons_zero, Option.some.injEq] at ho'
          subst ho'
          exact ⟨ops.length, rfl, by simp⟩
        | succ i => simpa using hspec i o' (by simpa using ho')

/-- Merging keeps the operands that were there and puts those that were not behind them, each once.
Every operand to merge has its slot, and every slot behind the old ones is the slot of one of them. -/
theorem mergeOperands_spec (operands more : List Operand) :
    (∃ rest, (mergeOperands operands more).1 = operands ++ rest ∧ rest.Nodup ∧
      (∀ o, o ∈ rest → o ∈ more ∧ o ∉ operands) ∧
      ∀ s, operands.length ≤ s → s < operands.length + rest.length →
        s ∈ (mergeOperands operands more).2) ∧
    (mergeOperands operands more).2.length = more.length ∧
    ∀ (i : Nat) (o : Operand), more[i]? = some o → ∃ s, (mergeOperands operands more).2[i]? = some s ∧
      (mergeOperands operands more).1[s]? = some o := by
  obtain ⟨rest, new, heq, hrest, hlen, hspec⟩ := foldl_mergeOperands more operands []
  rw [List.nil_append] at heq
  have hmerge : mergeOperands operands more = (operands ++ rest, new) := heq
  rw [hmerge]
  exact ⟨⟨rest, rfl, hrest⟩, hlen, hspec⟩

theorem mem_slotsNaming {temps : List TempId} {operands : List Operand} {k : Nat} :
    k ∈ slotsNaming temps operands ↔ ∃ t, operands[k]? = some (.temp t) ∧ t ∈ temps := by
  simp only [slotsNaming, List.mem_filterMap, List.mem_mapIdx]
  constructor
  · rintro ⟨x, ⟨i, hi, rfl⟩, h⟩
    simp only at h
    cases ho : operands[i] with
    | temp t =>
      rw [ho] at h
      simp only [List.contains_eq_mem, decide_eq_true_eq, Option.ite_none_right_eq_some,
        Option.some.injEq] at h
      obtain ⟨ht, rfl⟩ := h
      exact ⟨t, by rw [List.getElem?_eq_getElem hi, ho], ht⟩
    | buffer b =>
      rw [ho] at h
      cases h
  · rintro ⟨t, hk, ht⟩
    obtain ⟨hi, ho⟩ := List.getElem?_eq_some_iff.mp hk
    exact ⟨(k, operands[k]), ⟨k, hi, rfl⟩, by simp [ho, ht]⟩

theorem eq_fst_of_slot {temps : List TempId} {a : Nat × Operand} {k : Nat}
    (h : (match a.2 with
      | .temp t => if temps.contains t then some a.1 else none
      | .buffer _ => none) = some k) : k = a.1 := by
  obtain ⟨i, o⟩ := a
  cases o with
  | temp t =>
    simp only [Option.ite_none_right_eq_some, Option.some.injEq] at h
    exact h.2.symm
  | buffer b => cases h

theorem pairwise_slotsNaming (temps : List TempId) (operands : List Operand) :
    (slotsNaming temps operands).Pairwise (· < ·) := by
  have hidx : (operands.mapIdx fun i o => (i, o)).Pairwise fun a b => a.1 < b.1 := by
    rw [List.pairwise_iff_getElem]
    intro i j hi hj hij
    simpa using hij
  refine hidx.filterMap _ ?_
  intro a a' haa' k hk k' hk'
  rw [eq_fst_of_slot hk, eq_fst_of_slot hk']
  exact haa'

end Inlining

def Body.mapSlots (b : Body) (σ : Nat → Nat) : Body := { b with ops := b.ops.map (Op.mapSlot σ) }

theorem Body.access_mem_mapSlots {b : Body} {σ : Nat → Nat} {s : Nat} {o : Offset} :
    .access s o ∈ (b.mapSlots σ).ops ↔ ∃ s', .access s' o ∈ b.ops ∧ σ s' = s := by
  simp only [mapSlots, List.mem_map, Op.mapSlot_eq_access_iff]
  constructor
  · rintro ⟨op, hop, s', rfl, hs⟩
    exact ⟨s', hop, hs⟩
  · rintro ⟨s', hop, hs⟩
    exact ⟨.access s' o, hop, s', rfl, hs⟩

theorem Body.effects_mapSlots (b : Body) (σ : Nat → Nat) : (b.mapSlots σ).effects = b.effects :=
  Op.length_filter_hasEffect_map (Op.hasEffect_mapSlot σ) b.ops

theorem Body.fits_mapSlots {b : Body} {σ : Nat → Nat} {rank slots slots' : Nat} (h : b.Fits rank slots)
    (hσ : ∀ s o, .access s o ∈ b.ops → σ s < slots') : (b.mapSlots σ).Fits rank slots' := by
  refine ⟨?_, ?_, ?_⟩
  · intro op hop
    obtain ⟨op', hop', rfl⟩ := List.mem_map.mp hop
    have hfit := h.ops op' hop'
    cases op' with
    | access s o => exact ⟨hfit.1, hσ s o hop'⟩
    | index d o => exact hfit
    | constant c => trivial
    | unary f a => trivial
    | binary f l r => trivial
    | call c as q => trivial
  · intro i op hop a ha
    simp only [mapSlots, List.getElem?_map, Option.map_eq_some_iff] at hop
    obtain ⟨op', hop', rfl⟩ := hop
    rw [Op.args_mapSlot] at ha
    exact h.args i op' hop' a ha
  · intro v hv
    simpa [mapSlots] using h.ret v hv

/-- The second region reads the operands of the first under new numbers. -/
structure Region.Renumbered (r r' : Region) (σ : Nat → Nat) : Prop where
  body : r'.body = r.body.mapSlots σ
  epilogue : r'.epilogue = r.epilogue.map (·.mapSlots σ)
  results : r'.results = r.results
  shape : r'.shape = r.shape
  operands : ∀ b s o, b ∈ r.bodies → .access s o ∈ b.ops → r'.operands[σ s]? = r.operands[s]?

namespace Region

variable {r r' r'' : Region} {σ τ : Nat → Nat}

theorem Renumbered.refl (r : Region) : r.Renumbered r id := by
  have hid : ∀ b : Body, b.mapSlots id = b := by
    intro b
    have hop : ∀ op : Op, op.mapSlot id = op := by
      intro op
      cases op <;> rfl
    have hops : b.ops.map (Op.mapSlot id) = b.ops := by
      rw [funext hop, List.map_id']
    simp only [Body.mapSlots, hops]
  refine ⟨(hid _).symm, ?_, rfl, rfl, fun _ _ _ _ _ => rfl⟩
  cases r.epilogue with
  | none => rfl
  | some e => rw [Option.map_some, hid]

theorem Renumbered.part (h : r.Renumbered r' σ) (flag : Bool) :
    r'.part flag = (r.part flag).map (·.mapSlots σ) := by
  cases flag with
  | false => simp [Region.part, h.body]
  | true => simp [Region.part, h.epilogue]

theorem Renumbered.trans (h : r.Renumbered r' σ) (h' : r'.Renumbered r'' τ) :
    r.Renumbered r'' (τ ∘ σ) := by
  have hcomp : ∀ b : Body, (b.mapSlots σ).mapSlots τ = b.mapSlots (τ ∘ σ) := by
    intro b
    simp only [Body.mapSlots, List.map_map]
    congr 2
    funext op
    cases op <;> rfl
  refine ⟨by rw [h'.body, h.body, hcomp], ?_, h'.results.trans h.results, h'.shape.trans h.shape, ?_⟩
  · rw [h'.epilogue, h.epilogue]
    cases r.epilogue with
    | none => rfl
    | some e => simp only [Option.map_some, hcomp]
  · intro b s o hb ho
    obtain ⟨flag, hflag⟩ := mem_bodies_iff.mp hb
    have hb' : b.mapSlots σ ∈ r'.bodies :=
      mem_bodies_iff.mpr ⟨flag, by rw [h.part, hflag]; rfl⟩
    have ho' : .access (σ s) o ∈ (b.mapSlots σ).ops := Body.access_mem_mapSlots.mpr ⟨s, ho, rfl⟩
    rw [Function.comp_apply, h'.operands _ _ _ hb' ho', h.operands b s o hb ho]

theorem Renumbered.unroll (h : r.Renumbered r' σ) : r'.unroll = r.unroll := by
  rw [Region.unroll, h.body]
  rfl

theorem Renumbered.partBox (h : r.Renumbered r' σ) (flag : Bool) (d : Box) :
    r'.partBox flag d = r.partBox flag d := by
  have hplan := Evaluation.iterationPlan_congr h.unroll (by rw [h.epilogue]; simp) d
  simp only [Region.partBox, tailBox, mainBox, hplan]

theorem Renumbered.mem_readsOf (h : r.Renumbered r' σ) {o : Operand} {box : Box} :
    box ∈ r'.readsOf o ↔ box ∈ r.readsOf o := by
  simp only [Region.mem_readsOf, mem_runs_iff]
  constructor
  · rintro ⟨d, b, base, s, q, hd, ⟨flag, hb, rfl⟩, hop, hs, rfl⟩
    rw [h.part] at hb
    obtain ⟨b', hb', rfl⟩ := Option.map_eq_some_iff.mp hb
    obtain ⟨s', hop', rfl⟩ := Body.access_mem_mapSlots.mp hop
    refine ⟨d, b', _, s', q, h.shape ▸ hd, ⟨flag, hb', rfl⟩, hop', ?_, by rw [h.partBox]⟩
    rw [← h.operands b' s' q (mem_bodies_iff.mpr ⟨flag, hb'⟩) hop', hs]
  · rintro ⟨d, b, base, s, q, hd, ⟨flag, hb, rfl⟩, hop, hs, rfl⟩
    refine ⟨d, b.mapSlots σ, _, σ s, q, h.shape.trans hd, ⟨flag, by rw [h.part, hb]; rfl, rfl⟩,
      Body.access_mem_mapSlots.mpr ⟨s, hop, rfl⟩, ?_, by rw [h.partBox]⟩
    rw [h.operands b s q (mem_bodies_iff.mpr ⟨flag, hb⟩) hop, hs]

theorem Renumbered.fits (h : r.Renumbered r' σ) {n : Nat} (hfit : r.Fits n) : r'.Fits n := by
  have hbody : ∀ b, b ∈ r.bodies → (b.mapSlots σ).Fits n r'.operands.length := by
    intro b hb
    have hb' := hfit.mem_bodies hb
    apply Body.fits_mapSlots hb'
    intro s o ho
    have hs : s < r.operands.length := (hb'.ops _ ho).2
    have heq := h.operands b s o hb ho
    rw [List.getElem?_eq_getElem hs] at heq
    exact (List.getElem?_eq_some_iff.mp heq).1
  refine ⟨?_, ?_, ?_, ?_⟩
  · rw [h.body]
    exact hbody r.body (by simp [bodies])
  · intro e he
    rw [h.epilogue] at he
    obtain ⟨e', he', rfl⟩ := Option.map_eq_some_iff.mp he
    obtain ⟨_, hu, hlen, hsome⟩ := hfit.epilogue e' he'
    refine ⟨hbody e' (by simp [bodies, he']), hu, ?_, ?_⟩
    · rw [h.results]
      exact hlen
    · rw [h.unroll]
      exact hsome
  · rw [h.unroll]
    exact hfit.unroll
  · rw [h.body, h.results]
    exact hfit.arity

theorem Renumbered.mainPoints (h : r.Renumbered r' σ) (d : Box) :
    r'.mainPoints d = r.mainPoints d ∧ r'.tailPoints d = r.tailPoints d := by
  have hplan := Evaluation.iterationPlan_congr h.unroll (by rw [h.epilogue]; simp) d
  simp only [Region.mainPoints, tailPoints, hplan, and_self]

theorem Renumbered.effects (h : r.Renumbered r' σ) (d : Box) :
    Evaluation.regionEffects r' d = Evaluation.regionEffects r d := by
  obtain ⟨hmain, htail⟩ := h.mainPoints d
  simp only [Evaluation.regionEffects, hmain, htail, h.body, h.epilogue, Body.effects_mapSlots]
  cases r.epilogue with
  | none => rfl
  | some e => simp [Body.effects_mapSlots]

theorem Renumbered.grids {α : Type} {A : Arithmetic α} {f : Func} {inputs : Evaluation.Inputs α}
    {T : TempId → Option (Grid α)} (h : r.Renumbered r' σ) {d : Box} {gs : List (Grid α)}
    (hgs : Evaluation.regionGrids A (Evaluation.readerOf f inputs T r) r d = .ok gs) :
    Evaluation.regionGrids A (Evaluation.readerOf f inputs T r') r' d = .ok gs := by
  have hread : ∀ b, b ∈ r.bodies → ∀ (s : Nat) (o : Offset), .access s o ∈ b.ops → ∀ (q : Point) (v : α),
      Evaluation.readerOf f inputs T r s q = .ok v →
        Evaluation.readerOf f inputs T r' (σ s) q = .ok v := by
    intro b hb s o ho q v hv
    obtain ⟨operand, hs, hv⟩ := Evaluation.readerOf_eq_ok_iff.mp hv
    exact Evaluation.readerOf_eq_ok_iff.mpr ⟨operand, by rw [h.operands b s o hb ho, hs], hv⟩
  apply Evaluation.regionGrids_mono h.unroll h.results (by rw [h.epilogue]; simp) _ _ hgs
  · intro p _ rs hrs
    rw [h.body]
    exact Body.eval_mapSlot rfl rfl (fun s o ho v => hread r.body (by simp [bodies]) s o ho _ v) hrs
  · intro e e' he he' p _ rs hrs
    rw [h.epilogue, he] at he'
    cases he'
    exact Body.eval_mapSlot rfl rfl (fun s o ho v => hread e (by simp [bodies, he]) s o ho _ v) hrs

end Region

namespace Inlining

theorem renumbered_removeSlot {r : Region} {k : Nat} (h : ∀ b o, b ∈ r.bodies → .access k o ∉ b.ops) :
    r.Renumbered (removeSlot r k) fun s => if k < s then s - 1 else s := by
  refine ⟨rfl, rfl, rfl, rfl, ?_⟩
  intro b s o hb ho
  have hne : s ≠ k := by
    rintro rfl
    exact h b o hb ho
  simp only [removeSlot, List.getElem?_eraseIdx]
  by_cases hks : k < s
  · have hlt : ¬ s - 1 < k := by omega
    have hsucc : s - 1 + 1 = s := by omega
    rw [if_pos hks, if_neg hlt, hsucc]
  · have hlt : s < k := by omega
    rw [if_neg hks, if_pos hlt]

theorem renumbered_foldl {ks : List Nat} {r : Region} (hks : ks.Pairwise (· > ·))
    (h : ∀ k, k ∈ ks → ∀ b o, b ∈ r.bodies → .access k o ∉ b.ops) :
    ∃ σ, r.Renumbered (ks.foldl removeSlot r) σ := by
  induction ks generalizing r with
  | nil => exact ⟨id, .refl r⟩
  | cons k ks ih =>
    rw [List.pairwise_cons] at hks
    have hfirst := renumbered_removeSlot (h k (by simp))
    have hrest : ∀ k', k' ∈ ks → ∀ b o, b ∈ (removeSlot r k).bodies → .access k' o ∉ b.ops := by
      intro k' hk' b o hb ho
      obtain ⟨flag, hflag⟩ := Region.mem_bodies_iff.mp hb
      rw [hfirst.part] at hflag
      obtain ⟨b', hb', rfl⟩ := Option.map_eq_some_iff.mp hflag
      obtain ⟨s, hs, he⟩ := Body.access_mem_mapSlots.mp ho
      have hb'' := Region.mem_bodies_iff.mpr ⟨flag, hb'⟩
      have hlt : k' < k := hks.1 k' hk'
      by_cases hk : k < s
      · rw [if_pos hk] at he
        omega
      · rw [if_neg hk] at he
        subst he
        exact h s (by simp [hk']) b' o hb'' hs
    obtain ⟨τ, hτ⟩ := ih hks.2 hrest
    exact ⟨_, hfirst.trans hτ⟩

theorem removeSlots_frame (ks : List Nat) (r : Region) :
    (ks.foldl removeSlot r).name = r.name ∧
      (r.operands.Nodup → (ks.foldl removeSlot r).operands.Nodup) := by
  induction ks generalizing r with
  | nil => exact ⟨rfl, id⟩
  | cons k ks ih =>
    obtain ⟨hname, hnodup⟩ := ih (removeSlot r k)
    exact ⟨hname, fun h => hnodup (h.eraseIdx k)⟩

/-- The consumer after the splice, with all operands still in their slots. -/
def merged (c : Candidate) (P C : Region) : Region :=
  let m := mergeOperands C.operands P.operands
  let splice (b : Body) := b.splice c.value P.body (P.body.ret.values.getD c.resultIndex 0) m.2
  { C with
    operands := m.1
    body := if c.inEpilogue then C.body else splice C.body
    epilogue := if c.inEpilogue then C.epilogue.map splice else C.epilogue }

theorem mergeRegion_eq (c : Candidate) (P C : Region) :
    mergeRegion c P C =
      (slotsNaming P.results (merged c P C).operands).reverse.foldl removeSlot (merged c P C) := rfl

theorem name_mergeRegion (c : Candidate) (P C : Region) : (mergeRegion c P C).name = C.name :=
  (removeSlots_frame _ (merged c P C)).1

theorem merged_part (c : Candidate) (P C : Region) (flag : Bool) :
    (merged c P C).part flag = (C.part flag).map fun b =>
      if flag = c.inEpilogue then b.splice c.value P.body (P.body.ret.values.getD c.resultIndex 0)
        (mergeOperands C.operands P.operands).2 else b := by
  cases flag <;> cases hc : c.inEpilogue <;> simp [Region.part, merged, hc]

theorem merged_unroll (c : Candidate) (P C : Region) : (merged c P C).unroll = C.unroll := by
  cases hc : c.inEpilogue <;> simp [Region.unroll, merged, hc]

theorem merged_isSome_epilogue (c : Candidate) (P C : Region) :
    (merged c P C).epilogue.isSome = C.epilogue.isSome := by
  cases hc : c.inEpilogue <;> simp [merged, hc]

section Spliceable

variable {f : Func} {c : Candidate} {P C : Region} {B : Body} {temp : TempId} {slot : Nat}
  {offset : Offset} {dP dC : Box}

theorem merged_operands_outer (c : Candidate) (P C : Region) {s : Nat} {o : Operand}
    (h : C.operands[s]? = some o) : (merged c P C).operands[s]? = some o := by
  obtain ⟨rest, hrest, _⟩ := (mergeOperands_spec C.operands P.operands).1
  have hlt := (List.getElem?_eq_some_iff.mp h).1
  simp only [merged, hrest]
  rw [List.getElem?_append_left hlt, h]

theorem merged_operands_inner (c : Candidate) (P C : Region) {s : Nat} {o : Operand}
    (h : P.operands[s]? = some o) :
    (merged c P C).operands[((mergeOperands C.operands P.operands).2[s]?).getD s]? = some o := by
  obtain ⟨s', hs', ho⟩ := (mergeOperands_spec C.operands P.operands).2.2 s o h
  rw [hs', Option.getD_some]
  exact ho

theorem Spliceable.access_merged_iff (S : Spliceable f c P C B temp slot offset dP dC) {flag : Bool}
    {b : Body} (hb : (merged c P C).part flag = some b) {s : Nat} {o : Offset} :
    .access s o ∈ b.ops ↔
      (∃ b' v, C.part flag = some b' ∧ b'.ops[v]? = some (.access s o) ∧
        ¬ (flag = c.inEpilogue ∧ v = c.value)) ∨
      (flag = c.inEpilogue ∧ ∃ s' o', .access s' o' ∈ P.body.ops ∧
        s = ((mergeOperands C.operands P.operands).2[s']?).getD s' ∧ o = o'.compose offset) := by
  rw [merged_part] at hb
  obtain ⟨b', hb', rfl⟩ := Option.map_eq_some_iff.mp hb
  by_cases hflag : flag = c.inEpilogue
  · have hB : b' = B := by
      rw [hflag, S.part] at hb'
      exact (Option.some.inj hb').symm
    subst hB
    rw [if_pos hflag, Body.access_mem_splice_ops S.access]
    constructor
    · rintro (⟨i, hi, hop⟩ | h)
      · exact .inl ⟨b', i, hb', hop, fun h => hi h.2⟩
      · exact .inr ⟨hflag, h⟩
    · rintro (⟨b'', v, hb'', hop, hne⟩ | ⟨_, h⟩)
      · rw [hb'] at hb''
        cases hb''
        exact .inl ⟨v, fun hv => hne ⟨hflag, hv⟩, hop⟩
      · exact .inr h
  · rw [if_neg hflag]
    constructor
    · intro hm
      obtain ⟨v, hv⟩ := List.mem_iff_getElem?.mp hm
      exact .inl ⟨b', v, hb', hv, fun h => hflag h.1⟩
    · rintro (⟨b'', v, hb'', hop, _⟩ | ⟨h, _⟩)
      · rw [hb'] at hb''
        cases hb''
        exact List.mem_of_getElem? hop
      · exact absurd h hflag

theorem Spliceable.producer_reads (S : Spliceable f c P C B temp slot offset dP dC) {s : Nat}
    {o : Offset} (ho : .access s o ∈ P.body.ops) {t : TempId} (hs : P.operands[s]? = some (.temp t)) :
    t ∉ P.results := by
  intro ht
  obtain ⟨v, hv⟩ := List.mem_iff_getElem?.mp ho
  exact S.distinct (S.only c.producer P false P.body v s o t S.producer rfl hv hs ht).1.symm

theorem Spliceable.eq_of_mem_readsOf (S : Spliceable f c P C B temp slot offset dP dC)
    {id : RegionId} {r : Region} (hr : f.region? id = some r) {t : TempId} (ht : t ∈ P.results)
    {box : Box} (hbox : box ∈ r.readsOf (.temp t)) :
    t = temp ∧ box = (C.partBox c.inEpilogue dC).shifted offset := by
  obtain ⟨d, b, base, s, q, hd, hrun, hop, hs, rfl⟩ := Region.mem_readsOf.mp hbox
  obtain ⟨flag, hb, rfl⟩ := Region.mem_runs_iff.mp hrun
  obtain ⟨v, hv⟩ := List.mem_iff_getElem?.mp hop
  obtain ⟨rfl, rfl, rfl⟩ := S.only id r flag b v s q t hr hb hv hs ht
  rw [S.consumer] at hr
  cases hr
  rw [S.part] at hb
  cases hb
  rw [S.access] at hv
  cases hv
  rw [S.operand] at hs
  cases hs
  rw [S.consumed] at hd
  cases hd
  exact ⟨rfl, rfl⟩

theorem Spliceable.marksOn_eq_nil (S : Spliceable f c P C B temp slot offset dP dC) {t : TempId}
    (ht : t ∈ P.results) : f.marksOn t = [] := by
  rw [List.eq_nil_iff_forall_not_mem]
  intro box hbox
  obtain ⟨o, ho, rfl, _⟩ := Func.mem_marksOn.mp hbox
  exact S.unmarked o ho ht

variable (hf : f.Sound)
include hf

theorem Spliceable.merged_operand (S : Spliceable f c P C B temp slot offset dP dC) {flag : Bool}
    {b : Body} (hb : (merged c P C).part flag = some b) {s : Nat} {o : Offset}
    (ho : .access s o ∈ b.ops) :
    ∃ operand, (merged c P C).operands[s]? = some operand ∧ f.operandLive operand = true ∧
      ∀ t, operand = .temp t → t ∉ P.results := by
  rcases (S.access_merged_iff hb).mp ho with ⟨b', v, hb', hop, hne⟩ | ⟨_, s', o', hop, rfl, rfl⟩
  · obtain ⟨operand, hs, hlive⟩ := hf.reads c.consumer C b' s o S.consumer
      (Region.mem_bodies_iff.mpr ⟨flag, hb'⟩) (List.mem_of_getElem? hop)
    refine ⟨operand, merged_operands_outer c P C hs, hlive, ?_⟩
    rintro t rfl ht
    exact hne (S.only c.consumer C flag b' v s o t S.consumer hb' hop hs ht).2
  · obtain ⟨operand, hs, hlive⟩ :=
      hf.reads c.producer P P.body s' o' S.producer (by simp [Region.bodies]) hop
    refine ⟨operand, merged_operands_inner c P C hs, hlive, ?_⟩
    rintro t rfl
    exact S.producer_reads hop hs

theorem Spliceable.exists_renumbered (S : Spliceable f c P C B temp slot offset dP dC) :
    ∃ σ, (merged c P C).Renumbered (mergeRegion c P C) σ := by
  rw [mergeRegion_eq]
  apply renumbered_foldl
  · rw [List.pairwise_reverse]
    exact pairwise_slotsNaming _ _
  · intro k hk b o hb ho
    obtain ⟨t, ht, hmem⟩ := mem_slotsNaming.mp (List.mem_reverse.mp hk)
    obtain ⟨flag, hflag⟩ := Region.mem_bodies_iff.mp hb
    obtain ⟨operand, hs, _, hnot⟩ := S.merged_operand hf hflag ho
    rw [ht] at hs
    cases hs
    exact hnot t rfl hmem

theorem exists_returned {id : RegionId} {r : Region} {i : Nat} {t : TempId} (hr : f.region? id = some r)
    (hplain : r.unroll = none) (ht : r.results[i]? = some t) :
    ∃ v, r.body.ret.values[i]? = some v ∧ v < r.body.ops.length := by
  have hfit := hf.fits id r hr
  have hfactor : r.body.ret.factor = 1 := by
    have hnone : r.body.ret.unroll = none := hplain
    simp [Return.factor, hnone]
  have hlt : i < r.body.ret.values.length := by
    rw [hfit.arity, hfactor, Nat.mul_one]
    exact (List.getElem?_eq_some_iff.mp ht).1
  exact ⟨r.body.ret.values[i], List.getElem?_eq_getElem hlt, hfit.body.ret _ (List.getElem_mem hlt)⟩

theorem Spliceable.result_lt (S : Spliceable f c P C B temp slot offset dP dC) :
    ∃ v, P.body.ret.values[c.resultIndex]? = some v ∧ P.body.ret.values.getD c.resultIndex 0 = v ∧
      v < P.body.ops.length := by
  obtain ⟨v, hv, hlt⟩ := exists_returned hf S.producer S.plain.1 S.result
  refine ⟨v, hv, ?_, hlt⟩
  rw [List.getD_eq_getElem?_getD, hv, Option.getD_some]

theorem Spliceable.fits_merged (S : Spliceable f c P C B temp slot offset dP dC) :
    (merged c P C).Fits f.rank := by
  have hP := hf.fits c.producer P S.producer
  have hC := hf.fits c.consumer C S.consumer
  obtain ⟨v, _, hv, hlt⟩ := S.result_lt hf
  have hlen : C.operands.length ≤ (merged c P C).operands.length := by
    obtain ⟨rest, hrest, _⟩ := (mergeOperands_spec C.operands P.operands).1
    simp only [merged, hrest, List.length_append]
    omega
  have hinner : ∀ s, s < P.operands.length →
      ((mergeOperands C.operands P.operands).2[s]?).getD s < (merged c P C).operands.length := by
    intro s hs
    have := merged_operands_inner c P C (List.getElem?_eq_getElem hs)
    exact (List.getElem?_eq_some_iff.mp this).1
  have hpart : ∀ flag b, (merged c P C).part flag = some b → ∃ b', C.part flag = some b' ∧
      b.Fits f.rank (merged c P C).operands.length ∧ b.ret.values.length = b'.ret.values.length ∧
      b.ret.unroll = b'.ret.unroll := by
    intro flag b hb
    rw [merged_part] at hb
    obtain ⟨b', hb', rfl⟩ := Option.map_eq_some_iff.mp hb
    have hfit' := (hC.mem_bodies (Region.mem_bodies_iff.mpr ⟨flag, hb'⟩)).mono hlen
    refine ⟨b', hb', ?_⟩
    by_cases hflag : flag = c.inEpilogue
    · have hB : b' = B := by
        rw [hflag, S.part] at hb'
        exact (Option.some.inj hb').symm
      subst hB
      rw [if_pos hflag]
      refine ⟨Body.fits_splice S.access hfit' hP.body (by rw [hv]; exact hlt) hinner, ?_, by simp⟩
      rw [Body.splice_values S.access, List.length_map]
    · rw [if_neg hflag]
      exact ⟨hfit', rfl, rfl⟩
  obtain ⟨b₀, hb₀, hfit₀, hlen₀, hunroll₀⟩ := hpart false (merged c P C).body rfl
  cases hb₀
  refine ⟨hfit₀, ?_, ?_, ?_⟩
  · intro e he
    obtain ⟨e', he', hfit', hlen', hunroll'⟩ := hpart true e he
    obtain ⟨_, hu, hl, hsome⟩ := hC.epilogue e' he'
    refine ⟨hfit', hunroll'.trans hu, hlen'.trans hl, ?_⟩
    rw [merged_unroll]
    exact hsome
  · rw [merged_unroll]
    exact hC.unroll
  · rw [hlen₀, Return.factor, hunroll₀]
    exact hC.arity

theorem Spliceable.exists_temp (S : Spliceable f c P C B temp slot offset dP dC) :
    ∃ x, f.temp? temp = some x ∧ x.producer = c.producer := by
  obtain ⟨x, hx, hp, _⟩ := hf.owned c.producer P _ temp S.producer S.result
  exact ⟨x, hx, hp⟩

variable (ha : f.Annotated)
include ha

theorem Spliceable.ranked (S : Spliceable f c P C B temp slot offset dP dC) :
    (C.partBox c.inEpilogue dC).Ranked f.rank ∧ offset.length = f.rank := by
  have hrun : (B, C.partBox c.inEpilogue dC) ∈ C.runs dC :=
    Region.mem_runs_iff.mpr ⟨c.inEpilogue, S.part, rfl⟩
  obtain ⟨hbase, hB⟩ := Region.ranked_of_mem_runs (hf.fits c.consumer C S.consumer)
    (ha.ranked _ C dC S.consumer S.consumed) hrun
  exact ⟨hbase, (hB.ops _ (List.mem_of_getElem? S.access)).1⟩

theorem Spliceable.shape_result (S : Spliceable f c P C B temp slot offset dP dC) {t : TempId}
    {x : Temporary} {b : Box} (ht : t ∈ P.results) (hx : f.temp? t = some x) (hb : x.shape = .known b) :
    b = (C.partBox c.inEpilogue dC).shifted offset := by
  obtain ⟨hbase, ho⟩ := S.ranked hf ha
  have hl := Func.leastAbove_temp hf ha hx hb
  rw [S.marksOn_eq_nil ht, List.nil_append] at hl
  have hall : ∀ box, box ∈ f.demandsOn (.temp t) →
      box = (C.partBox c.inEpilogue dC).shifted offset := by
    intro box hbox
    obtain ⟨id, r, hr, hbox⟩ := Func.mem_demandsOn.mp hbox
    exact (S.eq_of_mem_readsOf hr ht hbox).2
  have hne : f.demandsOn (.temp t) ≠ [] := by
    intro hnil
    have hshape := ha.temp t x hx
    rw [S.marksOn_eq_nil ht, hnil, hb] at hshape
    cases hshape
  obtain ⟨box, hbox⟩ := List.exists_mem_of_ne_nil _ hne
  exact hl.eq_of_forall_eq (Box.ranked_shifted hbase ho) (Box.canonical_shifted hbase ho)
    (hall box hbox ▸ hbox) hall

/-- The producer computes exactly the box that the spliced access reads. -/
theorem Spliceable.domain_eq (S : Spliceable f c P C B temp slot offset dP dC) :
    dP = (C.partBox c.inEpilogue dC).shifted offset := by
  obtain ⟨hbase, ho⟩ := S.ranked hf ha
  have hmem : temp ∈ P.results := List.mem_of_getElem? S.result
  have hread : (C.partBox c.inEpilogue dC).shifted offset ∈ f.demandsOn (.temp temp) :=
    Func.mem_demandsOn.mpr ⟨c.consumer, C, S.consumer, Region.mem_readsOf.mpr
      ⟨dC, B, _, slot, offset, S.consumed, Region.mem_runs_iff.mpr ⟨c.inEpilogue, S.part, rfl⟩,
        List.mem_of_getElem? S.access, S.operand, rfl⟩⟩
  obtain ⟨x, hx, _⟩ := S.exists_temp hf
  obtain ⟨b, hb, _⟩ := Func.exists_temp_covering hf ha hx (List.mem_append_right _ hread)
  have hregion := ha.region c.producer P S.producer
  rw [S.produced] at hregion
  cases hdem : Inference.demand f P with
  | unknown =>
    rw [hdem] at hregion
    cases hregion
  | known required =>
    rw [hdem, Region.computedShape, Region.computedDomain_of_not_padded (.inl S.plain.1)] at hregion
    cases hregion
    apply ((Func.canonicalTemps hf ha).leastAbove_demand hdem).eq_of_forall_eq
      (Box.ranked_shifted hbase ho) (Box.canonical_shifted hbase ho)
    · refine List.mem_filterMap.mpr ⟨.known b, ?_, by rw [← S.shape_result hf ha hmem hx hb]; rfl⟩
      exact List.mem_filterMap.mpr ⟨temp, hmem, by rw [hx, Option.map_some, hb]⟩
    · intro box hbox
      obtain ⟨s, hs, hbox⟩ := List.mem_filterMap.mp hbox
      obtain ⟨t, ht, hts⟩ := List.mem_filterMap.mp hs
      obtain ⟨y, hy, rfl⟩ := Option.map_eq_some_iff.mp hts
      cases hys : y.shape with
      | unknown =>
        rw [hys] at hbox
        cases hbox
      | known b' =>
        rw [hys] at hbox
        cases hbox
        exact S.shape_result hf ha ht hy hys

omit hf ha in
theorem merged_partBox (c : Candidate) (P C : Region) (flag : Bool) (d : Box) :
    (merged c P C).partBox flag d = C.partBox flag d := by
  have hplan := Evaluation.iterationPlan_congr (merged_unroll c P C) (merged_isSome_epilogue c P C) d
  simp only [Region.partBox, Region.tailBox, Region.mainBox, hplan]

omit hf ha in
theorem Spliceable.mem_runs_producer (S : Spliceable f c P C B temp slot offset dP dC)
    (hc : dP.Canonical) {b : Body} {base : Box} :
    (b, base) ∈ P.runs dP ↔ b = P.body ∧ base = dP := by
  rw [Region.mem_runs, S.plain.2, Region.mainBox_of_none hc S.plain.1]
  simp

omit hf ha in
theorem exists_merged_part {flag : Bool} {b : Body} (hb : C.part flag = some b) :
    ∃ b', (merged c P C).part flag = some b' := by
  rw [merged_part, hb]
  exact ⟨_, rfl⟩

theorem Spliceable.readsOf_of_merged (S : Spliceable f c P C B temp slot offset dP dC) {o : Operand}
    {box : Box} (h : box ∈ (merged c P C).readsOf o) : box ∈ C.readsOf o ∨ box ∈ P.readsOf o := by
  obtain ⟨hbase, hoff⟩ := S.ranked hf ha
  simp only [Region.mem_readsOf, Region.mem_runs_iff] at h
  obtain ⟨d, b, base, s, q, hd, ⟨flag, hb, rfl⟩, hop, hs, rfl⟩ := h
  rw [merged_partBox]
  rcases (S.access_merged_iff hb).mp hop with ⟨b', v, hb', hop', _⟩ | ⟨rfl, s', o', hop', rfl, rfl⟩
  · obtain ⟨operand, hs', _⟩ := hf.reads c.consumer C b' s q S.consumer
      (Region.mem_bodies_iff.mpr ⟨flag, hb'⟩) (List.mem_of_getElem? hop')
    have heq := merged_operands_outer c P C hs'
    rw [hs] at heq
    cases heq
    exact .inl (Region.mem_readsOf.mpr ⟨d, b', _, s, q, hd, Region.mem_runs_iff.mpr ⟨flag, hb', rfl⟩,
      List.mem_of_getElem? hop', hs', rfl⟩)
  · obtain ⟨operand, hs', _⟩ := hf.reads c.producer P P.body s' o' S.producer
      (by simp [Region.bodies]) hop'
    have heq := merged_operands_inner c P C hs'
    rw [hs] at heq
    cases heq
    have hd' : d = dC := by
      have hshape : C.shape = .known d := hd
      rw [S.consumed] at hshape
      exact (Shape.known.inj hshape).symm
    have hrun := (S.mem_runs_producer (Func.canonical_region hf ha S.producer S.produced)).mpr ⟨rfl, rfl⟩
    refine .inr (Region.mem_readsOf.mpr ⟨dP, P.body, dP, s', o', S.produced, hrun, hop', hs', ?_⟩)
    rw [hd', S.domain_eq hf ha, Box.shifted_shifted hbase hoff
      ((hf.fits c.producer P S.producer).body.ops _ hop').1]

omit hf ha in
theorem Spliceable.readsOf_merged_of_consumer (S : Spliceable f c P C B temp slot offset dP dC)
    {o : Operand} (ho : ∀ t, t ∈ P.results → o ≠ .temp t) {box : Box} (h : box ∈ C.readsOf o) :
    box ∈ (merged c P C).readsOf o := by
  simp only [Region.mem_readsOf, Region.mem_runs_iff] at h ⊢
  obtain ⟨d, b, base, s, q, hd, ⟨flag, hb, rfl⟩, hop, hs, rfl⟩ := h
  obtain ⟨v, hv⟩ := List.mem_iff_getElem?.mp hop
  obtain ⟨b', hb'⟩ := exists_merged_part (c := c) (P := P) hb
  refine ⟨d, b', _, s, q, hd, ⟨flag, hb', rfl⟩, (S.access_merged_iff hb').mpr
    (.inl ⟨b, v, hb, hv, ?_⟩), merged_operands_outer c P C hs, by rw [merged_partBox]⟩
  -- the access that is gone read a result of the producer
  rintro ⟨rfl, rfl⟩
  rw [S.part] at hb
  cases hb
  rw [S.access] at hv
  cases hv
  rw [S.operand] at hs
  cases hs
  exact ho temp (List.mem_of_getElem? S.result) rfl

theorem Spliceable.readsOf_merged_of_producer (S : Spliceable f c P C B temp slot offset dP dC)
    {o : Operand} {box : Box} (h : box ∈ P.readsOf o) : box ∈ (merged c P C).readsOf o := by
  obtain ⟨hbase, hoff⟩ := S.ranked hf ha
  obtain ⟨d, b, base, s, q, hd, hrun, hop, hs, rfl⟩ := Region.mem_readsOf.mp h
  rw [S.produced] at hd
  cases hd
  obtain ⟨rfl, rfl⟩ :=
    (S.mem_runs_producer (Func.canonical_region hf ha S.producer S.produced)).mp hrun
  obtain ⟨b', hb'⟩ := exists_merged_part (c := c) (P := P) S.part
  refine Region.mem_readsOf.mpr ⟨dC, b', _, _, q.compose offset, S.consumed,
    Region.mem_runs_iff.mpr ⟨c.inEpilogue, hb', rfl⟩,
    (S.access_merged_iff hb').mpr (.inr ⟨rfl, s, q, hop, rfl, rfl⟩),
    merged_operands_inner c P C hs, ?_⟩
  rw [merged_partBox, S.domain_eq hf ha, Box.shifted_shifted hbase hoff
    ((hf.fits c.producer P S.producer).body.ops _ hop).1]

theorem Spliceable.mem_readsOf_merged (S : Spliceable f c P C B temp slot offset dP dC) {o : Operand}
    (ho : ∀ t, t ∈ P.results → o ≠ .temp t) {box : Box} :
    box ∈ (merged c P C).readsOf o ↔ box ∈ C.readsOf o ∨ box ∈ P.readsOf o := by
  constructor
  · exact S.readsOf_of_merged hf ha
  · rintro (h | h)
    · exact S.readsOf_merged_of_consumer ho h
    · exact S.readsOf_merged_of_producer hf ha h

omit hf ha in
theorem Spliceable.effects_body (S : Spliceable f c P C B temp slot offset dP dC) :
    P.body.effects = 0 := by
  have hquiet := S.quiet
  simp only [Region.hasEffect, Region.bodies, List.any_cons, Bool.or_eq_false_iff] at hquiet
  rw [Body.effects, List.length_eq_zero_iff, List.filter_eq_nil_iff]
  exact List.any_eq_false.mp hquiet.1

omit hf ha in
theorem Spliceable.effects_merged (S : Spliceable f c P C B temp slot offset dP dC) (d : Box) :
    Evaluation.regionEffects (merged c P C) d = Evaluation.regionEffects C d := by
  have hplan := Evaluation.iterationPlan_congr (merged_unroll c P C) (merged_isSome_epilogue c P C) d
  have hmain : (merged c P C).mainPoints d = C.mainPoints d := by simp only [Region.mainPoints, hplan]
  have htail : (merged c P C).tailPoints d = C.tailPoints d := by simp only [Region.tailPoints, hplan]
  have hsplice : ∀ (v : ValueId) (slots : List Nat),
      (B.splice c.value P.body v slots).effects = B.effects := by
    intro v slots
    rw [Body.effects_splice S.access, S.effects_body, Nat.add_zero]
  have hpart := S.part
  simp only [Evaluation.regionEffects, hmain, htail]
  cases hc : c.inEpilogue with
  | false =>
    rw [hc] at hpart
    cases hpart
    simp [merged, hc, hsplice]
  | true =>
    rw [hc] at hpart
    have hepi : C.epilogue = some B := hpart
    simp [merged, hc, hepi, hsplice]

theorem Spliceable.producer_value {α : Type} {A : Arithmetic α} {inputs : Evaluation.Inputs α}
    {T : TempId → Option (Grid α)} (S : Spliceable f c P C B temp slot offset dP dC)
    (hT : Evaluation.Solves A f inputs f.regionIds T) {q : Point} (hq : dP.containsPoint q = true) :
    ∃ within : Array α,
      Body.evalOps A (Evaluation.readerOf f inputs T P) q P.body.ops #[] = .ok within ∧
        ∀ v, Evaluation.readerOf f inputs T C slot q = .ok v →
          within[P.body.ret.values.getD c.resultIndex 0]? = some v := by
  have hP := hf.fits c.producer P S.producer
  have hranked := ha.ranked c.producer P dP S.producer S.produced
  obtain ⟨w, hw, hw', _⟩ := S.result_lt hf
  obtain ⟨gs, hgs, hvals⟩ := hT.region c.producer P dP (Func.mem_regionIds.mpr ⟨P, S.producer⟩)
    S.producer S.produced
  obtain ⟨hall, rfl⟩ := (Evaluation.regionGrids_of_none hP hranked S.plain.1).mp hgs
  obtain ⟨rs, hrs⟩ := hall q hq
  obtain ⟨within, hwithin, hret⟩ := Body.eval_eq_ok_iff.mp hrs
  refine ⟨within, hwithin, ?_⟩
  intro v hv
  obtain ⟨operand, hs, hv⟩ := Evaluation.readerOf_eq_ok_iff.mp hv
  rw [S.operand] at hs
  cases hs
  obtain ⟨g, hg, hv⟩ := Option.bind_eq_some_iff.mp hv
  have hlt := (List.getElem?_eq_some_iff.mp S.result).1
  rw [hvals c.resultIndex temp S.result, List.getElem?_mapIdx, List.getElem?_eq_getElem hlt] at hg
  cases hg
  rw [Grid.get?_ofFn hranked _ hq] at hv
  have hj := (List.getElem?_eq_some_iff.mp hw).1
  have hvalue := congrArg (fun l : List (Option α) => l[c.resultIndex]?) hret
  simp only [List.getElem?_map, hw, Evaluation.getElem?_eq_valueAt hrs hj, Option.map_some, hv] at hvalue
  rw [hw']
  exact Option.some.inj hvalue

/-- The merged region computes the grids of the consumer. -/
theorem Spliceable.grids_merged {α : Type} {A : Arithmetic α} {inputs : Evaluation.Inputs α}
    {T : TempId → Option (Grid α)} (S : Spliceable f c P C B temp slot offset dP dC)
    (hT : Evaluation.Solves A f inputs f.regionIds T) {gs : List (Grid α)}
    (hgs : Evaluation.regionGrids A (Evaluation.readerOf f inputs T C) C dC = .ok gs) :
    Evaluation.regionGrids A (Evaluation.readerOf f inputs T (merged c P C)) (merged c P C) dC =
      .ok gs := by
  have hP := hf.fits c.producer P S.producer
  have hC := hf.fits c.consumer C S.consumer
  have hranked := ha.ranked c.consumer C dC S.consumer S.consumed
  obtain ⟨hbase, hoff⟩ := S.ranked hf ha
  obtain ⟨_, _, hw, hlt⟩ := S.result_lt hf
  have houter : ∀ s q v, Evaluation.readerOf f inputs T C s q = .ok v →
      Evaluation.readerOf f inputs T (merged c P C) s q = .ok v := by
    intro s q v hv
    obtain ⟨operand, hs, hv⟩ := Evaluation.readerOf_eq_ok_iff.mp hv
    exact Evaluation.readerOf_eq_ok_iff.mpr ⟨operand, merged_operands_outer c P C hs, hv⟩
  have hinner : ∀ s q v, Evaluation.readerOf f inputs T P s q = .ok v →
      Evaluation.readerOf f inputs T (merged c P C)
        (((mergeOperands C.operands P.operands).2[s]?).getD s) q = .ok v := by
    intro s q v hv
    obtain ⟨operand, hs, hv⟩ := Evaluation.readerOf_eq_ok_iff.mp hv
    exact Evaluation.readerOf_eq_ok_iff.mpr ⟨operand, merged_operands_inner c P C hs, hv⟩
  have hpart : ∀ flag b b', C.part flag = some b → (merged c P C).part flag = some b' →
      ∀ p, (C.partBox flag dC).containsPoint p = true → ∀ rs,
        b.eval A (Evaluation.readerOf f inputs T C) p = .ok rs →
        b'.eval A (Evaluation.readerOf f inputs T (merged c P C)) p = .ok rs := by
    intro flag b b' hb hb' p hp rs hrs
    rw [merged_part, hb, Option.map_some] at hb'
    cases hb'
    by_cases hflag : flag = c.inEpilogue
    · rw [if_pos hflag]
      subst hflag
      rw [S.part] at hb
      cases hb
      have hq := Box.containsPoint_shifted hbase hoff hp
      rw [← S.domain_eq hf ha] at hq
      obtain ⟨within, hwithin, hvalue⟩ := S.producer_value hf ha hT hq
      exact Body.eval_splice_of_eval S.access (by rw [hw]; exact hlt) hrs hwithin hvalue
        (fun s q v _ => houter s q v) (fun s q v _ => hinner s q v)
    · rw [if_neg hflag]
      exact Evaluation.eval_mono_read (fun s q v _ => houter s q v) hrs
  apply Evaluation.regionGrids_mono (merged_unroll c P C) rfl (merged_isSome_epilogue c P C) _ _ hgs
  · intro p hp
    exact hpart false C.body _ rfl rfl p (Region.mem_mainBox_of_mem hC hranked hp)
  · intro e e' he he' p hp
    exact hpart true e e' he he' p (Region.mem_tailBox_of_mem hC hranked hp)

end Spliceable

end Inlining

end Stencil
