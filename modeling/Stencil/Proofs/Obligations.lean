import Mathlib.Algebra.GroupWithZero.Nat
import Mathlib.Data.List.Nodup
import Stencil.Proofs.Validity

/-! The obligations one by one. What a sound function can still miss are operands that are listed but
gone, and coordinates that are out of range. -/

set_option autoImplicit false

namespace Stencil

theorem Op.obligation_of_mem_flaws {op : Op} {rank operands i : Nat} {part : Part} {x : Flaw}
    (hfit : op.Fits rank operands) (hargs : ∀ a, a ∈ op.args → a < i)
    (hx : x ∈ op.flaws rank operands part i) : x.obligation = .accessRank ∧ ¬ op.InRange := by
  refine ⟨?_, ?_⟩
  · have hlate : op.args.filter (i ≤ ·) = [] := by
      rw [List.filter_eq_nil_iff]
      intro a ha
      simpa using hargs a ha
    unfold Op.flaws at hx
    rw [hlate, List.map_nil, List.append_nil] at hx
    cases op with
    | access s o =>
      have hslot : ¬ operands ≤ s := Nat.not_le_of_lt hfit.2
      simp only [flawIf, hslot, decide_false, List.mem_append] at hx
      grind [Flaw.obligation]
    | index d o =>
      simp only [flawIf] at hx
      grind [Flaw.obligation]
    | constant c => cases hx
    | unary f a => cases hx
    | binary f l r => cases hx
    | call c as q => cases hx
  · intro hrange
    rw [Op.flaws_eq_nil_iff.mpr ⟨hfit, hrange, hargs⟩] at hx
    cases hx

theorem Body.obligation_of_mem_flaws {b : Body} {rank operands : Nat} {part : Part} {x : Flaw}
    (hfit : b.Fits rank operands) (hx : x ∈ b.flaws rank operands part) :
    x.obligation = .accessRank ∧ ∃ op : Op, op ∈ b.ops ∧ ¬ op.InRange := by
  have hret : b.ret.values.filter (b.ops.length ≤ ·) = [] := by
    rw [List.filter_eq_nil_iff]
    intro v hv
    simpa using hfit.ret v hv
  rw [Body.flaws, hret, List.map_nil, List.append_nil, List.mem_flatten] at hx
  obtain ⟨l, hl, hx⟩ := hx
  obtain ⟨i, hi, rfl⟩ := List.mem_mapIdx.mp hl
  have hm := List.getElem_mem hi
  obtain ⟨hob, hrange⟩ := Op.obligation_of_mem_flaws (hfit.ops _ hm)
    (hfit.args i _ (List.getElem?_eq_getElem hi)) hx
  exact ⟨hob, _, hm, hrange⟩

namespace Func

def meets (f : Func) (o : Obligation) : Bool := !f.violations.any fun v => v.flaw.obligation = o

theorem meets_iff {f : Func} {o : Obligation} :
    f.meets o = true ↔ ∀ v, v ∈ f.violations → v.flaw.obligation ≠ o := by
  simp [meets]

def Closed (f : Func) : Prop :=
  ∀ id r o, f.region? id = some r → o ∈ r.operands → f.operandLive o = true

def InRange (f : Func) : Prop :=
  ∀ id r b op, f.region? id = some r → b ∈ r.bodies → op ∈ b.ops → Op.InRange op

structure Bounded (f : Func) : Prop where
  buffer : ∀ b d, b ∈ f.buffers → b.domain = some d → d.wellFormed f.rank = true
  output : ∀ o, o ∈ f.outputs → o.domain.wellFormed f.rank = true

theorem mem_violations {f : Func} {v : Violation} :
    v ∈ f.violations ↔
      (∃ id r x, f.region? id = some r ∧ x ∈ f.regionFlaws id r ∧ v = ⟨some (id, r.name), x⟩) ∨
      ∃ x, (x ∈ f.tempFlaws ∨ x ∈ f.bufferFlaws ∨ x ∈ f.outputFlaws) ∧ v = ⟨none, x⟩ := by
  simp only [violations, List.mem_append, List.mem_flatMap, List.mem_map]
  apply or_congr
  · constructor
    · rintro ⟨⟨id, r⟩, hr, x, hx, rfl⟩
      exact ⟨id, r, x, mem_liveRegions.mp hr, hx, rfl⟩
    · rintro ⟨id, r, x, hr, hx, rfl⟩
      exact ⟨(id, r), mem_liveRegions.mpr hr, x, hx, rfl⟩
  · constructor
    · rintro ⟨x, (hx | hx) | hx, rfl⟩
      · exact ⟨x, .inl hx, rfl⟩
      · exact ⟨x, .inr (.inl hx), rfl⟩
      · exact ⟨x, .inr (.inr hx), rfl⟩
    · rintro ⟨x, hx | hx | hx, rfl⟩
      · exact ⟨x, .inl (.inl hx), rfl⟩
      · exact ⟨x, .inl (.inr hx), rfl⟩
      · exact ⟨x, .inr hx, rfl⟩

theorem sum_map_eq_of_unique {β : Type} {g : β → Nat} {xs : List β} (hxs : xs.Nodup) {x : β}
    (hx : x ∈ xs) (hother : ∀ y, y ∈ xs → y ≠ x → g y = 0) : (xs.map g).sum = g x := by
  induction xs with
  | nil => cases hx
  | cons z zs ih =>
    rw [List.nodup_cons] at hxs
    rw [List.map_cons, List.sum_cons]
    rcases List.mem_cons.mp hx with rfl | hx
    · have hzero : (zs.map g).sum = 0 := by
        rw [List.sum_eq_zero_iff_forall_eq_nat]
        intro n hn
        obtain ⟨y, hy, rfl⟩ := List.mem_map.mp hn
        refine hother y (List.mem_cons_of_mem _ hy) ?_
        rintro rfl
        exact hxs.1 hy
      omega
    · have hne : z ≠ x := by
        rintro rfl
        exact hxs.1 hx
      rw [hother z List.mem_cons_self hne, Nat.zero_add]
      exact ih hxs.2 hx fun y hy => hother y (List.mem_cons_of_mem _ hy)

theorem nodup_liveRegions (f : Func) : f.liveRegions.Nodup := List.Nodup.of_map _ f.nodup_regionIds

section Sound

variable {f : Func} (hf : f.Sound)

include hf

theorem Sound.listings_eq_one {t : TempId} {x : Temporary} (hx : f.temp? t = some x) :
    f.listings t = 1 := by
  obtain ⟨r, hr, ht⟩ := hf.produced t x hx
  have hmem := List.mem_of_getElem? ht
  have hsum : f.listings t = (f.liveRegions.map fun r => r.2.results.count t).sum :=
    List.sum_eq_foldl.symm
  rw [hsum, sum_map_eq_of_unique f.nodup_liveRegions (mem_liveRegions.mpr hr),
    List.count_eq_one_of_mem (hf.nodup_results hr) hmem]
  rintro ⟨id, r'⟩ hr' hne
  rw [List.count_eq_zero]
  intro ht'
  have hid := hf.owner_unique (mem_liveRegions.mp hr') hr ht' hmem
  subst hid
  rw [mem_liveRegions, hr] at hr'
  cases hr'
  exact hne rfl

theorem Sound.tempFlaws_eq_nil : f.tempFlaws = [] := by
  rw [tempFlaws, List.flatMap_eq_nil_iff]
  rintro ⟨t, x⟩ hx
  have hx := mem_liveTemps.mp hx
  obtain ⟨r, hr, _⟩ := hf.produced t x hx
  simp [flawIf_eq_nil_iff, hf.listings_eq_one hx, hr]

theorem Sound.mem_regionFlaws {id : RegionId} {r : Region} (hr : f.region? id = some r) {x : Flaw}
    (hx : x ∈ f.regionFlaws id r) :
    (∃ slot o, r.operands[slot]? = some o ∧ f.operandLive o = false ∧ x = .operandMissing slot) ∨
      (x.obligation = .accessRank ∧ ∃ b op, b ∈ r.bodies ∧ op ∈ b.ops ∧ ¬ Op.InRange op) := by
  have hfit := hf.fits id r hr
  have hret : f.returnFlaws r = [] := returnFlaws_eq_nil_iff.mpr ⟨hfit.unroll, hfit.arity⟩
  have howns : (r.results.mapIdx fun i t =>
      flawIf (!f.ownsResult id i t) (Flaw.resultNotOwned i)).flatten = [] := by
    rw [flatten_mapIdx_eq_nil_iff]
    intro i t ht
    rw [flawIf_eq_nil_iff, ownsResult_iff.mpr (hf.owned id r i t hr ht)]
    rfl
  rw [regionFlaws, hret, howns, List.append_nil, List.append_nil, List.mem_append,
    List.mem_append] at hx
  rcases hx with (hx | hx) | hx
  · obtain ⟨l, hl, hx⟩ := List.mem_flatten.mp hx
    obtain ⟨slot, hs, rfl⟩ := List.mem_mapIdx.mp hl
    refine .inl ⟨slot, r.operands[slot], List.getElem?_eq_getElem hs, ?_⟩
    cases hlive : f.operandLive r.operands[slot] with
    | true => simp [flawIf, hlive] at hx
    | false => simpa [flawIf, hlive] using hx
  · obtain ⟨hob, op, hop, hrange⟩ := Body.obligation_of_mem_flaws hfit.body hx
    exact .inr ⟨hob, r.body, op, by simp [Region.bodies], hop, hrange⟩
  · unfold epilogueFlaws at hx
    cases he : r.epilogue with
    | none => simp [he] at hx
    | some e =>
      obtain ⟨hfits, hplain, hlen, hsome⟩ := hfit.epilogue e he
      have hunroll : r.unroll.isNone = false := by simpa using hsome
      simp only [he, hunroll, hplain, hlen, flawIf, Option.isSome_none, bne_self_eq_false, Bool.or_self,
        Bool.false_eq_true, if_false, List.append_nil] at hx
      obtain ⟨hob, op, hop, hrange⟩ := Body.obligation_of_mem_flaws hfits hx
      exact .inr ⟨hob, e, op, by simp [Region.bodies, he], hop, hrange⟩

theorem Sound.violation_cases {v : Violation} (hv : v ∈ f.violations) :
    (∃ id r slot o, f.region? id = some r ∧ r.operands[slot]? = some o ∧ f.operandLive o = false ∧
      v = ⟨some (id, r.name), .operandMissing slot⟩) ∨
      (v.flaw.obligation = .accessRank ∧ ¬ (f.InRange ∧ f.Bounded)) := by
  rcases mem_violations.mp hv with ⟨id, r, x, hr, hx, rfl⟩ | ⟨x, hx, rfl⟩
  · rcases hf.mem_regionFlaws hr hx with ⟨slot, o, hs, hlive, rfl⟩ | ⟨hob, b, op, hb, hop, hnot⟩
    · exact .inl ⟨id, r, slot, o, hr, hs, hlive, rfl⟩
    · exact .inr ⟨hob, fun h => hnot (h.1 id r b op hr hb hop)⟩
  · right
    rcases hx with hx | hx | hx
    · rw [hf.tempFlaws_eq_nil] at hx
      cases hx
    · obtain ⟨b, hb, hx⟩ := List.mem_flatMap.mp hx
      cases hd : b.domain with
      | none => simp [flawIf, hd] at hx
      | some d =>
        cases hwf : d.wellFormed f.rank with
        | true => simp [flawIf, hd, hwf] at hx
        | false =>
          have hx : x = .bufferDomain b.name f.rank := by simpa [flawIf, hd, hwf] using hx
          refine ⟨by rw [hx]; rfl, ?_⟩
          rintro ⟨_, hbounded⟩
          rw [hbounded.buffer b d hb hd] at hwf
          cases hwf
    · obtain ⟨o, ho, hx⟩ := List.mem_flatMap.mp hx
      obtain ⟨y, hy⟩ := (hf.outputs o ho).1
      cases hwf : o.domain.wellFormed f.rank with
      | true => simp [flawIf, hy, hwf] at hx
      | false =>
        have hx : x = .outputDomain o.domain f.rank := by simpa [flawIf, hy, hwf] using hx
        refine ⟨by rw [hx]; rfl, ?_⟩
        rintro ⟨_, hbounded⟩
        rw [hbounded.output o ho] at hwf
        cases hwf

theorem Sound.meets_of_ne {o : Obligation} (hrank : o ≠ .accessRank) (hclosed : o ≠ .operandsClosed) :
    f.meets o = true := by
  rw [meets_iff]
  rintro v hv rfl
  rcases hf.violation_cases hv with ⟨id, r, slot, o, _, _, _, rfl⟩ | ⟨hob, _⟩
  · exact hclosed rfl
  · exact hrank hob

theorem Sound.meets_operandsClosed_iff : f.meets .operandsClosed = true ↔ f.Closed := by
  rw [meets_iff]
  constructor
  · intro h id r o hr ho
    obtain ⟨slot, hs⟩ := List.mem_iff_getElem?.mp ho
    cases hlive : f.operandLive o with
    | true => rfl
    | false =>
      obtain ⟨hlt, rfl⟩ := List.getElem?_eq_some_iff.mp hs
      have hx : Flaw.operandMissing slot ∈ f.regionFlaws id r := by
        simp only [regionFlaws, List.append_assoc, List.mem_append, List.mem_flatten, List.mem_mapIdx]
        exact .inl ⟨_, ⟨slot, hlt, rfl⟩, by simp [flawIf, hlive]⟩
      exact absurd rfl (h _ (mem_violations.mpr (.inl ⟨id, r, _, hr, hx, rfl⟩)))
  · intro h v hv
    rcases hf.violation_cases hv with ⟨id, r, slot, o, hr, hs, hlive, rfl⟩ | ⟨hob, _⟩
    · rw [h id r o hr (List.mem_of_getElem? hs)] at hlive
      cases hlive
    · rw [hob]
      decide

theorem Sound.meets_accessRank_iff : f.meets .accessRank = true ↔ f.InRange ∧ f.Bounded := by
  rw [meets_iff]
  constructor
  · intro h
    refine ⟨?_, ?_, ?_⟩
    · intro id r b op hr hb hop
      have hfit := hf.fits id r hr
      -- a flaw of either body would be one of the region
      have hbody : ∀ part x, x ∈ b.flaws f.rank r.operands.length part → x ∉ f.regionFlaws id r := by
        intro part x hx hmem
        exact h _ (mem_violations.mpr (.inl ⟨id, r, x, hr, hmem, rfl⟩))
          (Body.obligation_of_mem_flaws (hfit.mem_bodies hb) hx).1
      have hnil : ∃ part, b.flaws f.rank r.operands.length part = [] := by
        simp only [Region.bodies, List.mem_cons, Option.mem_toList] at hb
        rcases hb with rfl | he
        · refine ⟨.body, List.eq_nil_iff_forall_not_mem.mpr fun x hx => hbody .body x hx ?_⟩
          simp [regionFlaws, hx]
        · refine ⟨.epilogue, List.eq_nil_iff_forall_not_mem.mpr fun x hx => hbody .epilogue x hx ?_⟩
          simp [regionFlaws, epilogueFlaws, he, hx]
      obtain ⟨part, hnil⟩ := hnil
      exact (Body.flaws_eq_nil_iff.mp hnil).2 op hop
    · intro b d hb hd
      cases hwf : d.wellFormed f.rank with
      | true => rfl
      | false =>
        have hx : Flaw.bufferDomain b.name f.rank ∈ f.bufferFlaws :=
          List.mem_flatMap.mpr ⟨b, hb, by simp [flawIf, hd, hwf]⟩
        exact absurd rfl (h _ (mem_violations.mpr (.inr ⟨_, .inr (.inl hx), rfl⟩)))
    · intro o ho
      cases hwf : o.domain.wellFormed f.rank with
      | true => rfl
      | false =>
        have hx : Flaw.outputDomain o.domain f.rank ∈ f.outputFlaws :=
          List.mem_flatMap.mpr ⟨o, ho, by simp [flawIf, hwf]⟩
        exact absurd rfl (h _ (mem_violations.mpr (.inr ⟨_, .inr (.inr hx), rfl⟩)))
  · intro h v hv
    rcases hf.violation_cases hv with ⟨id, r, slot, o, _, _, _, rfl⟩ | ⟨_, hnot⟩
    · intro he
      cases he
    · exact absurd h hnot

end Sound

/-- A function passes verification if it is sound, lists nothing that is gone, and keeps within the
range of coordinates. -/
theorem verified_iff {f : Func} :
    f.verified = .ok () ↔ f.Sound ∧ f.Closed ∧ f.InRange ∧ f.Bounded := by
  have hmeets : f.verified = .ok () ↔ ∀ o, f.meets o = true := by
    constructor
    · intro h o
      simp [meets, violations_eq_nil h]
    · intro h
      unfold verified
      cases hv : f.violations with
      | nil => rfl
      | cons v vs => exact absurd rfl (meets_iff.mp (h v.flaw.obligation) v (by simp [hv]))
  constructor
  · intro h
    have hf := sound_of_verified h
    exact ⟨hf, hf.meets_operandsClosed_iff.mp (hmeets.mp h _), hf.meets_accessRank_iff.mp (hmeets.mp h _)⟩
  · rintro ⟨hf, hclosed, hrange⟩
    rw [hmeets]
    intro o
    by_cases hrank : o = .accessRank
    · exact hrank ▸ hf.meets_accessRank_iff.mpr hrange
    · by_cases hop : o = .operandsClosed
      · exact hop ▸ hf.meets_operandsClosed_iff.mpr hclosed
      · exact hf.meets_of_ne hrank hop

theorem SameStructure.verified {f g : Func} (h : f.SameStructure g) (hf : f.verified = .ok ()) :
    g.verified = .ok () := by
  obtain ⟨hsound, hclosed, hrange, hbound⟩ := verified_iff.mp hf
  refine verified_iff.mpr ⟨hsound.of_sameStructure h, ?_, ?_, ?_, ?_⟩
  · intro id r o hr ho
    obtain ⟨r', s, hr', rfl⟩ := h.exists_region hr
    rw [← h.operandLive_eq]
    exact hclosed id r' o hr' ho
  · intro id r b op hr hb hop
    obtain ⟨r', s, hr', rfl⟩ := h.exists_region hr
    exact hrange id r' b op hr' hb hop
  · intro b d hb hd
    obtain ⟨i, hi⟩ := List.mem_iff_getElem?.mp hb
    obtain ⟨b', s, hb', rfl⟩ := h.exists_buffer (b := i) hi
    rw [← h.rank_eq]
    exact hbound.buffer b' d (List.mem_of_getElem? hb') hd
  · intro o ho
    rw [← h.rank_eq]
    exact hbound.output o (h.outputs_eq ▸ ho)

end Func

end Stencil
