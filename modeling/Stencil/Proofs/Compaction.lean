import Stencil.Proofs.Rebuilding

/-! Closing up the empty places of a function. The text does not show places, so the function with
its regions and temporaries numbered anew has the same text. -/

set_option autoImplicit false

namespace Stencil

/-- The number of a place among the occupied ones. -/
def placeOf {β : Type} (ps : List (Nat × β)) (i : Nat) : Nat := (ps.map (·.1)).idxOf i

section Places

variable {β γ : Type} {xs : List (Option β)} {i j : Nat} {x y : β}

theorem pairwise_livePlaces (n : Nat) (xs : List (Option β)) :
    ((livePlaces n xs).map (·.1)).Pairwise (· < ·) := by
  rw [map_fst_livePlaces]
  exact (List.pairwise_lt_range' 1).filter _

theorem nodup_livePlaces (n : Nat) (xs : List (Option β)) : ((livePlaces n xs).map (·.1)).Nodup :=
  (pairwise_livePlaces n xs).imp Nat.ne_of_lt

theorem mem_livePlaces_zero : (i, x) ∈ livePlaces 0 xs ↔ xs[i]?.join = some x := by
  rw [mem_livePlaces, Nat.sub_zero]
  cases xs[i]? with
  | none => simp
  | some y => simp

theorem placeOf_eq (h : (livePlaces 0 xs)[j]? = some (i, x)) : placeOf (livePlaces 0 xs) i = j := by
  obtain ⟨hlt, hj⟩ := List.getElem?_eq_some_iff.mp h
  have := (nodup_livePlaces 0 xs).idxOf_getElem j (by rwa [List.length_map])
  rwa [List.getElem_map, hj] at this

theorem getElem?_placeOf (h : xs[i]?.join = some x) :
    (livePlaces 0 xs)[placeOf (livePlaces 0 xs) i]? = some (i, x) := by
  obtain ⟨j, hj⟩ := List.mem_iff_getElem?.mp (mem_livePlaces_zero.mpr h)
  rw [placeOf_eq hj, hj]

theorem placeOf_inj (hi : xs[i]?.join = some x) (hj : xs[j]?.join = some y)
    (h : placeOf (livePlaces 0 xs) i = placeOf (livePlaces 0 xs) j) : i = j := by
  have hx := getElem?_placeOf hi
  rw [h, getElem?_placeOf hj] at hx
  cases hx
  rfl

theorem getElem?_closed (g : β → γ) (h : xs[i]?.join = some x) :
    ((livePlaces 0 xs).map fun p => some (g p.2))[placeOf (livePlaces 0 xs) i]?.join = some (g x) := by
  rw [List.getElem?_map, getElem?_placeOf h]
  rfl

theorem exists_of_getElem?_closed {g : β → γ} {z : γ}
    (h : ((livePlaces 0 xs).map fun p => some (g p.2))[j]?.join = some z) :
    ∃ i x, xs[i]?.join = some x ∧ j = placeOf (livePlaces 0 xs) i ∧ z = g x := by
  rw [List.getElem?_map] at h
  cases hj : (livePlaces 0 xs)[j]? with
  | none =>
    rw [hj] at h
    cases h
  | some p =>
    obtain ⟨i, x⟩ := p
    rw [hj] at h
    cases h
    exact ⟨i, x, mem_livePlaces_zero.mp (List.mem_of_getElem? hj), (placeOf_eq hj).symm, rfl⟩

theorem map_placeOf_livePlaces (xs : List (Option β)) :
    ((livePlaces 0 xs).map (·.1)).map (placeOf (livePlaces 0 xs)) =
      List.range (livePlaces 0 xs).length := by
  refine List.ext_getElem (by simp) fun i hi hi' => ?_
  simp only [List.getElem_map, List.getElem_range]
  have hlt : i < ((livePlaces 0 xs).map (·.1)).length := by simpa using hi
  have := (nodup_livePlaces 0 xs).idxOf_getElem i hlt
  rwa [List.getElem_map] at this

end Places

namespace Func

variable {f : Func} {id : RegionId} {r : Region} {t : TempId} {x : Temporary}

def compactOperand (f : Func) : Operand → Operand
  | .temp t => .temp (placeOf f.liveTemps t)
  | .buffer b => .buffer b

def compactTemp (f : Func) (x : Temporary) : Temporary :=
  { x with producer := placeOf f.liveRegions x.producer }

def compactRegion (f : Func) (r : Region) : Region :=
  { r with
    operands := r.operands.map f.compactOperand
    results := r.results.map (placeOf f.liveTemps) }

def compact (f : Func) : Func :=
  { f with
    temps := f.liveTemps.map fun p => some (f.compactTemp p.2)
    regions := f.liveRegions.map fun p => some (f.compactRegion p.2)
    outputs := f.outputs.map fun o => { o with temp := placeOf f.liveTemps o.temp }
    stamp := none }

theorem temp?_compact (h : f.temp? t = some x) :
    f.compact.temp? (placeOf f.liveTemps t) = some (f.compactTemp x) := getElem?_closed f.compactTemp h

theorem exists_temp_of_compact {i : TempId} {y : Temporary} (h : f.compact.temp? i = some y) :
    ∃ t x, f.temp? t = some x ∧ i = placeOf f.liveTemps t ∧ y = f.compactTemp x :=
  exists_of_getElem?_closed h

theorem region?_compact (h : f.region? id = some r) :
    f.compact.region? (placeOf f.liveRegions id) = some (f.compactRegion r) :=
  getElem?_closed f.compactRegion h

theorem exists_region_of_compact {i : RegionId} {r' : Region} (h : f.compact.region? i = some r') :
    ∃ id r, f.region? id = some r ∧ i = placeOf f.liveRegions id ∧ r' = f.compactRegion r :=
  exists_of_getElem?_closed h

theorem operandLive_compact {o : Operand} (h : f.operandLive o = true) :
    f.compact.operandLive (f.compactOperand o) = true := by
  cases o with
  | temp t =>
    obtain ⟨x, hx⟩ := Option.isSome_iff_exists.mp h
    exact Option.isSome_iff_exists.mpr ⟨_, temp?_compact hx⟩
  | buffer b => exact h

theorem compactOperand_inj {o o' : Operand} (ho : f.operandLive o = true) (ho' : f.operandLive o' = true)
    (h : f.compactOperand o = f.compactOperand o') : o = o' := by
  cases o with
  | temp t =>
    cases o' with
    | temp t' =>
      obtain ⟨x, hx⟩ := Option.isSome_iff_exists.mp ho
      obtain ⟨x', hx'⟩ := Option.isSome_iff_exists.mp ho'
      rw [placeOf_inj hx hx' (Operand.temp.inj h)]
    | buffer b => cases h
  | buffer b =>
    cases o' with
    | temp t => cases h
    | buffer b' =>
      cases h
      rfl

theorem filterMap_temp?_compact (h : ∀ t ∈ r.results, ∃ x, f.temp? t = some x) :
    (f.compactRegion r).results.filterMap f.compact.temp? =
      (r.results.filterMap f.temp?).map f.compactTemp := by
  rw [compactRegion, List.filterMap_map, List.map_filterMap]
  refine List.filterMap_congr fun t ht => ?_
  obtain ⟨x, hx⟩ := h t ht
  rw [Function.comp_apply, temp?_compact hx, hx]
  rfl

theorem resultShape_compact (h : ∀ t ∈ r.results, ∃ x, f.temp? t = some x) :
    f.compact.resultShape (f.compactRegion r) = f.resultShape r := by
  rw [resultShape, filterMap_temp?_compact h, List.foldl_map]
  rfl

theorem Legible.compact (h : f.Legible) (hclosed : f.Closed) : f.compact.Legible where
  name := h.name
  rank_pos := h.rank_pos
  rank_le := h.rank_le
  buffer := h.buffer
  temp i y hy := by
    obtain ⟨t, x, hx, _, rfl⟩ := exists_temp_of_compact hy
    exact h.temp t x hx
  region i r' hr' := by
    obtain ⟨id, r, hr, _, rfl⟩ := exists_region_of_compact hr'
    obtain ⟨hname, hops, hfactor, hoperands, hresults⟩ := h.region id r hr
    refine ⟨hname, hops, hfactor, ?_, fun hnil => hresults (List.map_eq_nil_iff.mp hnil)⟩
    exact hoperands.map_on fun o ho o' ho' heq =>
      compactOperand_inj (hclosed id r o hr ho) (hclosed id r o' hr ho') heq
  buffers_nodup := h.buffers_nodup
  temps_inj i j y y' hy hy' heq := by
    obtain ⟨t, x, hx, rfl, rfl⟩ := exists_temp_of_compact hy
    obtain ⟨u, x', hx', rfl, rfl⟩ := exists_temp_of_compact hy'
    rw [h.temps_inj t u x x' hx hx' heq]
  regions_inj i j r' s' hr' hs' heq := by
    obtain ⟨id, r, hr, rfl, rfl⟩ := exists_region_of_compact hr'
    obtain ⟨id', s, hs, rfl, rfl⟩ := exists_region_of_compact hs'
    rw [h.regions_inj id id' r s hr hs heq]

theorem Sound.compact (h : f.Sound) (hclosed : f.Closed) : f.compact.Sound where
  fits i r' hr' := by
    obtain ⟨id, r, hr, _, rfl⟩ := exists_region_of_compact hr'
    obtain ⟨hbody, hepilogue, hunroll, harity⟩ := h.fits id r hr
    refine ⟨?_, fun e he => ?_, hunroll, ?_⟩
    · rwa [compactRegion, List.length_map]
    · rw [compactRegion, List.length_map, List.length_map]
      exact hepilogue e he
    · rw [compactRegion, List.length_map]
      exact harity
  owned i r' n t' hr' ht' := by
    obtain ⟨id, r, hr, rfl, rfl⟩ := exists_region_of_compact hr'
    rw [compactRegion, List.getElem?_map] at ht'
    obtain ⟨t, ht, rfl⟩ := Option.map_eq_some_iff.mp ht'
    obtain ⟨x, hx, rfl, hindex⟩ := h.owned id r n t hr ht
    exact ⟨f.compactTemp x, temp?_compact hx, rfl, hindex⟩
  produced i y hy := by
    obtain ⟨t, x, hx, rfl, rfl⟩ := exists_temp_of_compact hy
    obtain ⟨r, hr, ht⟩ := h.produced t x hx
    refine ⟨f.compactRegion r, region?_compact hr, ?_⟩
    rw [compactRegion, List.getElem?_map]
    exact congrArg (Option.map _) ht
  outputs o' ho' := by
    obtain ⟨o, ho, rfl⟩ := List.mem_map.mp ho'
    obtain ⟨⟨x, hx⟩, hranked⟩ := h.outputs o ho
    exact ⟨⟨_, temp?_compact hx⟩, hranked⟩
  reads i r' b s o hr' hb hop := by
    obtain ⟨id, r, hr, rfl, rfl⟩ := exists_region_of_compact hr'
    obtain ⟨operand, hs, _⟩ := h.reads id r b s o hr hb hop
    refine ⟨f.compactOperand operand, ?_,
      operandLive_compact (hclosed id r operand hr (List.mem_of_getElem? hs))⟩
    rw [compactRegion, List.getElem?_map, hs]
    rfl

theorem Boxed.compact (h : f.Boxed) (hsound : f.Sound) : f.compact.Boxed where
  domain := h.domain
  required := h.required
  temp i y hy := by
    obtain ⟨t, x, hx, _, rfl⟩ := exists_temp_of_compact hy
    exact h.temp t x hx
  region i r' hr' := by
    obtain ⟨id, r, hr, _, rfl⟩ := exists_region_of_compact hr'
    exact h.region id r hr
  output o' ho' := by
    obtain ⟨o, ho, rfl⟩ := List.mem_map.mp ho'
    exact h.output o ho
  given i r' hr' hnone := by
    obtain ⟨id, r, hr, _, rfl⟩ := exists_region_of_compact hr'
    rw [resultShape_compact fun t ht => hsound.exists_temp hr ht]
    exact h.given id r hr hnone

theorem Printable.compact (h : f.Printable) : f.compact.Printable where
  legible := h.legible.compact h.closed
  sound := h.sound.compact h.closed
  closed i r' o' hr' ho' := by
    obtain ⟨id, r, hr, _, rfl⟩ := exists_region_of_compact hr'
    obtain ⟨o, ho, rfl⟩ := List.mem_map.mp ho'
    exact operandLive_compact (h.closed id r o hr ho)
  inRange i r' b op hr' := by
    obtain ⟨id, r, hr, _, rfl⟩ := exists_region_of_compact hr'
    exact h.inRange id r b op hr
  boxed := h.boxed.compact h.sound

theorem tempName_compact (h : ∃ x, f.temp? t = some x) :
    f.compact.tempName (placeOf f.liveTemps t) = f.tempName t := by
  obtain ⟨x, hx⟩ := h
  rw [tempName, tempName, temp?_compact hx, hx]
  rfl

theorem operandName_compact {o : Operand} (h : f.operandLive o = true) :
    f.compact.operandName (f.compactOperand o) = f.operandName o := by
  cases o with
  | temp t =>
    obtain ⟨x, hx⟩ := Option.isSome_iff_exists.mp h
    simp only [compactOperand, operandName, temp?_compact hx, hx]
    rfl
  | buffer b => rfl

theorem opText_compact (h : ∀ o ∈ r.operands, f.operandLive o = true) (op : Op) :
    f.compact.opText (f.compactRegion r) op = f.opText r op := by
  cases op with
  | access slot o =>
    have hslot : f.compact.slotName (f.compactRegion r) slot = f.slotName r slot := by
      rw [slotName, slotName, compactRegion, List.getElem?_map]
      cases hs : r.operands[slot]? with
      | none => rfl
      | some operand => exact operandName_compact (h operand (List.mem_of_getElem? hs))
    rw [opText, opText, hslot]
  | _ => rfl

theorem regionText_compact (h : ∀ o ∈ r.operands, f.operandLive o = true)
    (hresults : ∀ t ∈ r.results, ∃ x, f.temp? t = some x) :
    f.compact.regionText (f.compactRegion r) = f.regionText r := by
  have hbody : f.compact.bodyText (f.compactRegion r) = f.bodyText r := by
    funext b
    simp only [bodyText, opText_compact h]
  have hnames : (f.compactRegion r).results.map f.compact.tempName = r.results.map f.tempName := by
    rw [compactRegion, List.map_map]
    exact List.map_congr_left fun t ht => tempName_compact (hresults t ht)
  have hoperands :
      (f.compactRegion r).operands.map f.compact.operandName = r.operands.map f.operandName := by
    rw [compactRegion, List.map_map]
    exact List.map_congr_left fun o ho => operandName_compact (h o ho)
  have hhead : f.compact.headText (f.compactRegion r) = f.headText r := by
    unfold headText
    rw [hnames, hoperands, resultShape_compact hresults, filterMap_temp?_compact hresults, List.map_map]
    rfl
  unfold regionText
  rw [hhead, hbody]
  rfl

theorem text_compact (hsound : f.Sound) (hclosed : f.Closed) : f.compact.text = f.text := by
  have hregions : f.compact.liveRegions.map (fun r => f.compact.regionText r.2) =
      f.liveRegions.map fun r => f.regionText r.2 := by
    have hlive : f.compact.liveRegions.map (·.2) = f.liveRegions.map fun p => f.compactRegion p.2 := by
      rw [← map_snd_livePlaces 0 (f.liveRegions.map fun p => f.compactRegion p.2), List.map_map]
      rfl
    change f.compact.liveRegions.map (f.compact.regionText ∘ (·.2)) = _
    rw [← List.map_map, hlive, List.map_map]
    refine List.map_congr_left fun p hp => ?_
    have hr := mem_liveRegions.mp hp
    exact regionText_compact (fun o ho => hclosed p.1 p.2 o hr ho) fun t ht => hsound.exists_temp hr ht
  have houtputs : f.compact.outputs.map f.compact.outputText = f.outputs.map f.outputText := by
    rw [compact, List.map_map]
    refine List.map_congr_left fun o ho => ?_
    simp only [Function.comp_apply, outputText]
    rw [← tempName_compact (hsound.outputs o ho).1]
    rfl
  unfold text
  rw [hregions, houtputs]
  rfl

/-- Temporaries stand in the order of their producers, and those of one region in the order of its
results. -/
def Lined (f : Func) : Prop :=
  ∀ t t' x x', f.temp? t = some x → f.temp? t' = some x' → t < t' →
    x.producer < x'.producer ∨ x.producer = x'.producer ∧ x.resultIndex < x'.resultIndex

theorem Lined.lt (h : f.Lined) {t' : TempId} {x' : Temporary} (hx : f.temp? t = some x)
    (hx' : f.temp? t' = some x')
    (hlt : x.producer < x'.producer ∨ x.producer = x'.producer ∧ x.resultIndex < x'.resultIndex) :
    t < t' := by
  rcases Nat.lt_trichotomy t t' with ht | rfl | ht
  · exact ht
  · cases hx.symm.trans hx'
    rcases hlt with hlt | ⟨_, hlt⟩ <;> exact absurd hlt (Nat.lt_irrefl _)
  · rcases hlt with hlt | ⟨heq, hlt⟩ <;> rcases h t' t x' x hx' hx ht with hlt' | ⟨heq', hlt'⟩
    · exact absurd hlt (Nat.lt_asymm hlt')
    · exact absurd heq' (Nat.ne_of_gt hlt)
    · exact absurd heq (Nat.ne_of_gt hlt')
    · exact absurd hlt (Nat.lt_asymm hlt')

theorem Lined.flatMap_results (h : f.Lined) (hsound : f.Sound) :
    f.liveRegions.flatMap (·.2.results) = f.liveTemps.map (·.1) := by
  -- both lists increase and have the same members
  have hsorted : (f.liveRegions.flatMap (·.2.results)).Pairwise (· < ·) := by
    rw [List.pairwise_flatMap]
    constructor
    · intro p hp
      have hr := mem_liveRegions.mp hp
      rw [List.pairwise_iff_getElem]
      intro i j hi hj hij
      obtain ⟨x, hx, hproducer, hindex⟩ := hsound.owned p.1 p.2 i _ hr (List.getElem?_eq_getElem hi)
      obtain ⟨y, hy, hproducer', hindex'⟩ := hsound.owned p.1 p.2 j _ hr (List.getElem?_eq_getElem hj)
      exact h.lt hx hy (.inr ⟨hproducer.trans hproducer'.symm, by omega⟩)
    · refine (List.pairwise_map.mp (pairwise_livePlaces 0 f.regions)).imp_of_mem
        fun {p q} hp hq hlt t ht t' ht' => ?_
      obtain ⟨i, hi⟩ := List.mem_iff_getElem?.mp ht
      obtain ⟨j, hj⟩ := List.mem_iff_getElem?.mp ht'
      obtain ⟨x, hx, hproducer, _⟩ := hsound.owned p.1 p.2 i t (mem_liveRegions.mp hp) hi
      obtain ⟨y, hy, hproducer', _⟩ := hsound.owned q.1 q.2 j t' (mem_liveRegions.mp hq) hj
      exact h.lt hx hy (.inl (by rwa [hproducer, hproducer']))
  have hids : (f.liveTemps.map (·.1)).Pairwise (· < ·) := pairwise_livePlaces 0 f.temps
  have hmem : ∀ t, t ∈ f.liveRegions.flatMap (·.2.results) ↔ t ∈ f.liveTemps.map (·.1) := by
    intro t
    rw [List.mem_flatMap, List.mem_map]
    constructor
    · rintro ⟨p, hp, ht⟩
      obtain ⟨x, hx⟩ := hsound.exists_temp (mem_liveRegions.mp hp) ht
      exact ⟨(t, x), mem_liveTemps.mpr hx, rfl⟩
    · rintro ⟨⟨_, x⟩, hx, rfl⟩
      obtain ⟨r, hr, ht⟩ := hsound.produced _ x (mem_liveTemps.mp hx)
      exact ⟨(x.producer, r), mem_liveRegions.mpr hr, List.mem_of_getElem? ht⟩
  have hperm : (f.liveRegions.flatMap (·.2.results)).Perm (f.liveTemps.map (·.1)) :=
    (List.perm_ext_iff_of_nodup (hsorted.imp Nat.ne_of_lt) (hids.imp Nat.ne_of_lt)).mpr hmem
  exact hperm.eq_of_pairwise (fun a b _ _ hab hba => absurd hab (Nat.lt_asymm hba)) hsorted hids

theorem Lined.dense_compact (h : f.Lined) (hsound : f.Sound) :
    f.compact.Dense (f.liveRegions.map fun p => f.compactRegion p.2)
      (f.liveTemps.map fun p => f.compactTemp p.2) where
  regions := (List.map_map).symm
  temps := (List.map_map).symm
  numbered := by
    have hresults : (f.liveRegions.map fun p => f.compactRegion p.2).flatMap (·.results) =
        (f.liveRegions.flatMap (·.2.results)).map (placeOf f.liveTemps) := by
      rw [List.flatMap_map, List.map_flatMap]
      rfl
    rw [hresults, h.flatMap_results hsound, List.length_map]
    exact map_placeOf_livePlaces f.temps
  stamp := rfl

theorem Dense.lined {rs : List Region} {ts : List Temporary} (h : f.Dense rs ts) (hsound : f.Sound) :
    f.Lined := by
  have hsorted : (rs.flatMap (·.results)).Pairwise (· < ·) := by
    rw [h.numbered]
    exact List.pairwise_lt_range
  obtain ⟨hwithin, hacross⟩ := List.pairwise_flatMap.mp hsorted
  intro t t' x x' hx hx' hlt
  obtain ⟨r, hr, ht⟩ := hsound.produced t x hx
  obtain ⟨r', hr', ht'⟩ := hsound.produced t' x' hx'
  rw [h.region?_eq] at hr hr'
  rcases Nat.lt_trichotomy x.producer x'.producer with hp | hp | hp
  · exact .inl hp
  · refine .inr ⟨hp, ?_⟩
    rw [hp, hr'] at hr
    cases hr
    obtain ⟨hi, rfl⟩ := List.getElem?_eq_some_iff.mp ht
    obtain ⟨hj, rfl⟩ := List.getElem?_eq_some_iff.mp ht'
    rcases Nat.lt_trichotomy x.resultIndex x'.resultIndex with hi' | hi' | hi'
    · exact hi'
    · simp only [hi'] at hlt
      exact absurd hlt (Nat.lt_irrefl _)
    · have := List.pairwise_iff_getElem.mp (hwithin r (List.mem_of_getElem? hr')) _ _ hj hi hi'
      exact absurd hlt (Nat.lt_asymm this)
  · obtain ⟨hi, rfl⟩ := List.getElem?_eq_some_iff.mp hr
    obtain ⟨hj, rfl⟩ := List.getElem?_eq_some_iff.mp hr'
    have := List.pairwise_iff_getElem.mp hacross _ _ hj hi hp t' (List.mem_of_getElem? ht') t
      (List.mem_of_getElem? ht)
    exact absurd hlt (Nat.lt_asymm this)

end Func

/-- The text of a program with empty places is read to be the program without them. -/
theorem Program.load_text_compact {p : Program} (h : ∀ f ∈ p.functions, f.Printable ∧ f.Lined)
    (hnames : (p.functions.map (·.name)).Nodup) :
    load p.text = .ok ⟨p.functions.map Func.compact⟩ ∧
      Program.text ⟨p.functions.map Func.compact⟩ = p.text := by
  have htext : Program.text ⟨p.functions.map Func.compact⟩ = p.text := by
    unfold text
    rw [List.map_map]
    exact congrArg _ (List.map_congr_left fun f hf =>
      Func.text_compact (h f hf).1.sound (h f hf).1.closed)
  refine ⟨?_, htext⟩
  rw [← htext]
  refine load_text (fun g hg => ?_) ?_
  · obtain ⟨f, hf, rfl⟩ := List.mem_map.mp hg
    exact ⟨(h f hf).1.compact, _, _, (h f hf).2.dense_compact (h f hf).1.sound⟩
  · rw [List.map_map]
    exact hnames

end Stencil
