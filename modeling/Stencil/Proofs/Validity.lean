import Stencil.Proofs.Func
import Stencil.Verification

/-! What verification establishes: a function without violations is sound. Soundness leaves out what
neither inference nor evaluation relies on, the range of coordinates and operands that are listed
but not read, so that it survives rewriting. -/

set_option autoImplicit false

namespace Stencil

theorem flawIf_eq_nil_iff {β : Type} {c : Bool} {x : β} : flawIf c x = [] ↔ c = false := by
  cases c <;> simp [flawIf]

def Op.InRange : Op → Prop
  | .access _ o => Offset.inRange o = true
  | .index _ o => Offset.inRange o = true
  | _ => True

theorem Op.flaws_eq_nil_iff {op : Op} {rank operands i : Nat} {part : Part} :
    op.flaws rank operands part i = [] ↔
      op.Fits rank operands ∧ op.InRange ∧ ∀ a, a ∈ op.args → a < i := by
  have hargs : ((op.args.filter (i ≤ ·)).map (Flaw.useBeforeDefinition part i) = []) ↔
      ∀ a, a ∈ op.args → a < i := by
    simp only [List.map_eq_nil_iff, List.filter_eq_nil_iff, decide_eq_true_eq]
    constructor
    · intro h a ha
      exact Nat.lt_of_not_le (h a ha)
    · intro h a ha
      exact Nat.not_le_of_lt (h a ha)
  unfold Op.flaws
  rw [List.append_eq_nil_iff, hargs]
  cases op with
  | access s o =>
    simp only [List.append_eq_nil_iff, flawIf_eq_nil_iff, bne_eq_false_iff_eq, Bool.not_eq_false',
      decide_eq_false_iff_not, Nat.not_le, Fits, InRange]
    constructor
    · rintro ⟨⟨⟨h1, h2⟩, h3⟩, h4⟩
      exact ⟨⟨h1, h3⟩, h2, h4⟩
    · rintro ⟨⟨h1, h3⟩, h2, h4⟩
      exact ⟨⟨⟨h1, h2⟩, h3⟩, h4⟩
  | index d o =>
    simp only [flawIf_eq_nil_iff, Bool.or_eq_false_iff, bne_eq_false_iff_eq, Bool.not_eq_false',
      decide_eq_false_iff_not, Nat.not_le, Fits, InRange]
    constructor
    · rintro ⟨⟨⟨h1, h2⟩, h3⟩, h4⟩
      exact ⟨⟨h1, h2⟩, h3, h4⟩
    · rintro ⟨⟨h1, h2⟩, h3, h4⟩
      exact ⟨⟨⟨h1, h2⟩, h3⟩, h4⟩
  | constant c => simp [Fits, InRange]
  | unary f a => simp [Fits, InRange]
  | binary f l r => simp [Fits, InRange]
  | call c as q => simp [Fits, InRange]

theorem flatten_mapIdx_eq_nil_iff {β γ : Type} {xs : List β} {f : Nat → β → List γ} :
    (xs.mapIdx f).flatten = [] ↔ ∀ (i : Nat) (x : β), xs[i]? = some x → f i x = [] := by
  simp only [List.flatten_eq_nil_iff, List.mem_mapIdx]
  constructor
  · intro h i x hx
    obtain ⟨hi, rfl⟩ := List.getElem?_eq_some_iff.mp hx
    exact h _ ⟨i, hi, rfl⟩
  · rintro h l ⟨i, hi, rfl⟩
    exact h i _ (List.getElem?_eq_getElem hi)

theorem Body.flaws_eq_nil_iff {b : Body} {rank operands : Nat} {part : Part} :
    b.flaws rank operands part = [] ↔ b.Fits rank operands ∧ ∀ op : Op, op ∈ b.ops → op.InRange := by
  rw [Body.flaws, List.append_eq_nil_iff, flatten_mapIdx_eq_nil_iff]
  simp only [Op.flaws_eq_nil_iff, List.map_eq_nil_iff, List.filter_eq_nil_iff, decide_eq_true_eq,
    Nat.not_le]
  constructor
  · rintro ⟨hops, hret⟩
    refine ⟨⟨?_, ?_, hret⟩, ?_⟩
    · intro op hop
      obtain ⟨i, hi⟩ := List.mem_iff_getElem?.mp hop
      exact (hops i op hi).1
    · intro i op hop
      exact (hops i op hop).2.2
    · intro op hop
      obtain ⟨i, hi⟩ := List.mem_iff_getElem?.mp hop
      exact (hops i op hi).2.1
  · rintro ⟨hfit, hrange⟩
    refine ⟨?_, hfit.ret⟩
    intro i op hop
    have hm := List.mem_of_getElem? hop
    exact ⟨hfit.ops op hm, hrange op hm, hfit.args i op hop⟩

/-- The bodies of a region fit its operands, results and unrolling. -/
structure Region.Fits (rank : Nat) (r : Region) : Prop where
  body : r.body.Fits rank r.operands.length
  epilogue : ∀ e, r.epilogue = some e → e.Fits rank r.operands.length ∧ e.ret.unroll = none ∧
    e.ret.values.length = r.results.length ∧ r.unroll.isSome = true
  unroll : ∀ u, r.unroll = some u → u.axis < rank ∧ 0 < u.factor
  arity : r.body.ret.values.length = r.results.length * r.body.ret.factor

theorem Region.Fits.mem_bodies {rank : Nat} {r : Region} (h : r.Fits rank) {b : Body}
    (hb : b ∈ r.bodies) : b.Fits rank r.operands.length := by
  simp only [bodies, List.mem_cons, Option.mem_toList] at hb
  rcases hb with rfl | hb
  · exact h.body
  · exact (h.epilogue b hb).1

namespace Func

theorem returnFlaws_eq_nil_iff {f : Func} {r : Region} :
    f.returnFlaws r = [] ↔ (∀ u, r.unroll = some u → u.axis < f.rank ∧ 0 < u.factor) ∧
      r.body.ret.values.length = r.results.length * r.body.ret.factor := by
  simp only [returnFlaws, List.append_eq_nil_iff, flawIf_eq_nil_iff, bne_eq_false_iff_eq]
  apply and_congr_left
  intro _
  unfold Region.unroll
  cases hu : r.body.ret.unroll with
  | none => simp
  | some u =>
    simp only [List.append_eq_nil_iff, flawIf_eq_nil_iff, decide_eq_false_iff_not, Option.some.injEq]
    constructor
    · rintro ⟨h1, h2⟩ u' rfl
      omega
    · intro h
      have := h u rfl
      omega

theorem epilogueFlaws_eq_nil_iff {f : Func} {r : Region} :
    f.epilogueFlaws r = [] ↔ ∀ e, r.epilogue = some e →
      (e.Fits f.rank r.operands.length ∧ e.ret.unroll = none ∧ e.ret.values.length = r.results.length ∧
        r.unroll.isSome = true) ∧ ∀ op : Op, op ∈ e.ops → op.InRange := by
  unfold epilogueFlaws
  cases he : r.epilogue with
  | none => simp
  | some e =>
    simp only [List.append_eq_nil_iff, flawIf_eq_nil_iff, Body.flaws_eq_nil_iff, Bool.or_eq_false_iff,
      bne_eq_false_iff_eq, Option.some.injEq, forall_eq', Option.isNone_eq_false_iff,
      Option.isSome_eq_false_iff, Option.isNone_iff_eq_none]
    constructor
    · rintro ⟨⟨⟨h1, h2⟩, h3⟩, h4, h5⟩
      exact ⟨⟨h1, h4, h5, h3⟩, h2⟩
    · rintro ⟨⟨h1, h4, h5, h3⟩, h2⟩
      exact ⟨⟨⟨h1, h2⟩, h3⟩, h4, h5⟩

theorem regionFlaws_eq_nil_iff {f : Func} {id : RegionId} {r : Region} :
    f.regionFlaws id r = [] ↔ r.Fits f.rank ∧
      (∀ b, b ∈ r.bodies → ∀ op : Op, op ∈ b.ops → op.InRange) ∧
      (∀ o, o ∈ r.operands → f.operandLive o = true) ∧
      ∀ (i : Nat) (t : TempId), r.results[i]? = some t → f.ownsResult id i t = true := by
  simp only [regionFlaws, List.append_eq_nil_iff, flatten_mapIdx_eq_nil_iff, flawIf_eq_nil_iff,
    Bool.not_eq_false', Body.flaws_eq_nil_iff, returnFlaws_eq_nil_iff, epilogueFlaws_eq_nil_iff]
  constructor
  · rintro ⟨⟨⟨⟨hlive, hbody, hrange⟩, hunroll, harity⟩, hepi⟩, howns⟩
    refine ⟨⟨hbody, fun e he => (hepi e he).1, hunroll, harity⟩, ?_, ?_, howns⟩
    · intro b hb op hop
      simp only [Region.bodies, List.mem_cons, Option.mem_toList] at hb
      rcases hb with rfl | hb
      · exact hrange op hop
      · exact (hepi b hb).2 op hop
    · intro o ho
      obtain ⟨i, hi⟩ := List.mem_iff_getElem?.mp ho
      exact hlive i o hi
  · rintro ⟨hfit, hrange, hlive, howns⟩
    refine ⟨⟨⟨⟨?_, hfit.body, ?_⟩, hfit.unroll, hfit.arity⟩, ?_⟩, howns⟩
    · intro i o ho
      exact hlive o (List.mem_of_getElem? ho)
    · exact hrange r.body (by simp [Region.bodies])
    · intro e he
      exact ⟨hfit.epilogue e he, hrange e (by simp [Region.bodies, he])⟩

theorem ownsResult_iff {f : Func} {id : RegionId} {i : Nat} {t : TempId} :
    f.ownsResult id i t = true ↔ ∃ x, f.temp? t = some x ∧ x.producer = id ∧ x.resultIndex = i := by
  unfold ownsResult
  cases f.temp? t with
  | none => simp
  | some x => simp

/-- What inference, rewriting and evaluation rely on. -/
structure Sound (f : Func) : Prop where
  fits : ∀ id r, f.region? id = some r → r.Fits f.rank
  owned : ∀ id r (i : Nat) t, f.region? id = some r → r.results[i]? = some t →
    ∃ x, f.temp? t = some x ∧ x.producer = id ∧ x.resultIndex = i
  produced : ∀ t x, f.temp? t = some x →
    ∃ r, f.region? x.producer = some r ∧ r.results[x.resultIndex]? = some t
  outputs : ∀ o, o ∈ f.outputs → (∃ x, f.temp? o.temp = some x) ∧ o.domain.Ranked f.rank
  reads : ∀ id r b s o, f.region? id = some r → b ∈ r.bodies → .access s o ∈ b.ops →
    ∃ operand, r.operands[s]? = some operand ∧ f.operandLive operand = true

theorem exists_mem_results_of_listings {f : Func} {t : TempId} (h : f.listings t ≠ 0) :
    ∃ id r, f.region? id = some r ∧ t ∈ r.results := by
  have hsum : ∀ (rs : List (RegionId × Region)) (a : Nat),
      (rs.map fun r => r.2.results.count t).foldl (· + ·) a ≠ a → ∃ r, r ∈ rs ∧ t ∈ r.2.results := by
    intro rs
    induction rs with
    | nil => intro a ha; simp at ha
    | cons r rs ih =>
      intro a ha
      by_cases hc : t ∈ r.2.results
      · exact ⟨r, by simp, hc⟩
      · rw [List.map_cons, List.foldl_cons, List.count_eq_zero_of_not_mem hc] at ha
        obtain ⟨r', hr', ht⟩ := ih _ ha
        exact ⟨r', by simp [hr'], ht⟩
  obtain ⟨⟨id, r⟩, hr, ht⟩ := hsum f.liveRegions 0 h
  exact ⟨id, r, mem_liveRegions.mp hr, ht⟩

theorem violations_eq_nil {f : Func} (h : f.verified = .ok ()) : f.violations = [] := by
  unfold verified at h
  split at h
  · assumption
  · cases h

theorem sound_of_verified {f : Func} (h : f.verified = .ok ()) : f.Sound := by
  have hv := violations_eq_nil h
  simp only [violations, List.append_eq_nil_iff, List.map_eq_nil_iff, List.flatMap_eq_nil_iff] at hv
  obtain ⟨hregions, ⟨htemps, hbuffers⟩, houtputs⟩ := hv
  have hregion : ∀ id r, f.region? id = some r → f.regionFlaws id r = [] := by
    intro id r hr
    exact hregions (id, r) (mem_liveRegions.mpr hr)
  have howned : ∀ id r (i : Nat) t, f.region? id = some r → r.results[i]? = some t →
      ∃ x, f.temp? t = some x ∧ x.producer = id ∧ x.resultIndex = i := by
    intro id r i t hr ht
    exact ownsResult_iff.mp ((regionFlaws_eq_nil_iff.mp (hregion id r hr)).2.2.2 i t ht)
  refine ⟨?_, howned, ?_, ?_, ?_⟩
  · intro id r hr
    exact (regionFlaws_eq_nil_iff.mp (hregion id r hr)).1
  · intro t x hx
    have hflaw := List.flatMap_eq_nil_iff.mp htemps (t, x) (mem_liveTemps.mpr hx)
    simp only [flawIf_eq_nil_iff, Bool.or_eq_false_iff, bne_eq_false_iff_eq] at hflaw
    obtain ⟨id, r, hr, hm⟩ := exists_mem_results_of_listings (f := f) (t := t) (by omega)
    obtain ⟨i, hi⟩ := List.mem_iff_getElem?.mp hm
    obtain ⟨x', hx', hp, hidx⟩ := howned id r i t hr hi
    rw [hx] at hx'
    cases hx'
    exact ⟨r, by rw [hp]; exact hr, by rw [hidx]; exact hi⟩
  · intro o ho
    have hflaw := List.flatMap_eq_nil_iff.mp houtputs o ho
    simp only [List.append_eq_nil_iff, flawIf_eq_nil_iff, Bool.not_eq_false',
      Option.isNone_eq_false_iff] at hflaw
    exact ⟨Option.isSome_iff_exists.mp hflaw.1, Box.ranked_of_wellFormed hflaw.2⟩
  · intro id r b s o hr hb hm
    obtain ⟨hfit, _, hlive, _⟩ := regionFlaws_eq_nil_iff.mp (hregion id r hr)
    have hs : s < r.operands.length := ((hfit.mem_bodies hb).ops _ hm).2
    exact ⟨r.operands[s], List.getElem?_eq_getElem hs, hlive _ (List.getElem_mem hs)⟩

theorem Sound.owner_unique {f : Func} (hf : f.Sound) {id id' : RegionId} {r r' : Region} {t : TempId}
    (hr : f.region? id = some r) (hr' : f.region? id' = some r') (ht : t ∈ r.results)
    (ht' : t ∈ r'.results) : id = id' := by
  obtain ⟨i, hi⟩ := List.mem_iff_getElem?.mp ht
  obtain ⟨i', hi'⟩ := List.mem_iff_getElem?.mp ht'
  obtain ⟨x, hx, hp, _⟩ := hf.owned id r i t hr hi
  obtain ⟨x', hx', hp', _⟩ := hf.owned id' r' i' t hr' hi'
  rw [hx] at hx'
  cases hx'
  rw [← hp, ← hp']

theorem Sound.nodup_results {f : Func} (hf : f.Sound) {id : RegionId} {r : Region}
    (hr : f.region? id = some r) : r.results.Nodup := by
  rw [List.Nodup, List.pairwise_iff_getElem]
  intro i j hi hj hij he
  obtain ⟨x, hx, _, hxi⟩ := hf.owned id r i _ hr (List.getElem?_eq_getElem hi)
  obtain ⟨y, hy, _, hyj⟩ := hf.owned id r j _ hr (List.getElem?_eq_getElem hj)
  rw [← he, hx] at hy
  cases hy
  omega

theorem SameStructure.operandLive_eq {f g : Func} (h : f.SameStructure g) (o : Operand) :
    f.operandLive o = g.operandLive o := by
  cases o with
  | temp t =>
    have ht := congrArg (fun k : Func => (k.temp? t).isSome) h
    simpa [temp?_clearShapes, operandLive] using ht
  | buffer b =>
    have hb := congrArg (fun k : Func => (k.buffer? b).isSome) h
    simpa [buffer?_clearShapes, operandLive] using hb

theorem Sound.of_sameStructure {f g : Func} (h : f.SameStructure g) (hf : f.Sound) : g.Sound := by
  refine ⟨?_, ?_, ?_, ?_, ?_⟩
  · intro id r hr
    obtain ⟨r', s, hr', rfl⟩ := h.exists_region hr
    have hfit := hf.fits id r' hr'
    rw [h.rank_eq] at hfit
    exact ⟨hfit.body, hfit.epilogue, hfit.unroll, hfit.arity⟩
  · intro id r i t hr ht
    obtain ⟨r', s, hr', rfl⟩ := h.exists_region hr
    obtain ⟨x, hx, hp, hi⟩ := hf.owned id r' i t hr' ht
    obtain ⟨x', s', hx', rfl⟩ := h.symm.exists_temp hx
    exact ⟨x', hx', hp, hi⟩
  · intro t x hx
    obtain ⟨x', s, hx', rfl⟩ := h.exists_temp hx
    obtain ⟨r, hr, ht⟩ := hf.produced t x' hx'
    obtain ⟨r', s', hr', rfl⟩ := h.symm.exists_region hr
    exact ⟨r', hr', ht⟩
  · intro o ho
    rw [← h.outputs_eq] at ho
    obtain ⟨⟨x, hx⟩, hrank⟩ := hf.outputs o ho
    obtain ⟨x', s, hx', _⟩ := h.symm.exists_temp hx
    exact ⟨⟨x', hx'⟩, h.rank_eq ▸ hrank⟩
  · intro id r b s o hr hb hm
    obtain ⟨r', s', hr', rfl⟩ := h.exists_region hr
    obtain ⟨operand, ho, hlive⟩ := hf.reads id r' b s o hr' hb hm
    exact ⟨operand, ho, h.operandLive_eq operand ▸ hlive⟩

end Func

end Stencil
