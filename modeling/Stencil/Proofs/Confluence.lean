import Stencil.Proofs.Commutation

/-! The order of splices does not matter. Whichever region is spliced next, all ways to go on until
none is left splice the same regions and end with the same function, operands taken by name;
inlining takes one of these ways. -/

set_option autoImplicit false

namespace Stencil

inductive Series {α ι : Type} (step : α → ι → α → Prop) : α → List ι → α → Prop
  | nil (a : α) : Series step a [] a
  | cons {a b c : α} {i : ι} {is : List ι} (first : step a i b) (rest : Series step b is c) :
      Series step a (i :: is) c

/-- A label leads to one place, and two of them can be taken in either order. -/
structure Commuting {α ι : Type} (step : α → ι → α → Prop) : Prop where
  unique : ∀ a i b b', step a i b → step a i b' → b = b'
  join : ∀ a i j b c, i ≠ j → step a i b → step a j c → ∃ d, step b j d ∧ step c i d

namespace Series

variable {α ι : Type} [DecidableEq ι] {step : α → ι → α → Prop} (hstep : Commuting step)

include hstep

/-- In a series that goes on to the end, a step that can be made at its start can be made first. -/
theorem advance {a b c : α} {i : ι} {is : List ι} (h : Series step a is c) (hend : ∀ j d, ¬ step c j d)
    (hi : step a i b) : i ∈ is ∧ Series step b (is.erase i) c := by
  induction h generalizing b with
  | nil a => exact absurd hi (hend i b)
  | @cons a a' c j js hj rest ih =>
    by_cases hij : i = j
    · subst hij
      cases hstep.unique a i b a' hi hj
      exact ⟨List.mem_cons_self, by simpa using rest⟩
    · obtain ⟨d, hb, ha'⟩ := hstep.join a i j b a' hij hi hj
      obtain ⟨hmem, hrest⟩ := ih hend ha'
      refine ⟨List.mem_cons_of_mem j hmem, ?_⟩
      rw [List.erase_cons_tail (by simpa using Ne.symm hij)]
      exact .cons hb hrest

/-- All series that go on to the end make the same steps and end at one place. -/
theorem perm_and_eq {a c d : α} {is js : List ι} (h : Series step a is c) (h' : Series step a js d)
    (hc : ∀ j e, ¬ step c j e) (hd : ∀ j e, ¬ step d j e) : is.Perm js ∧ c = d := by
  induction h generalizing js with
  | nil a =>
    cases h' with
    | nil => exact ⟨.refl _, rfl⟩
    | cons first rest => exact absurd first (hc _ _)
  | @cons a a' c i is hi rest ih =>
    obtain ⟨hmem, hrest⟩ := h'.advance hstep hd hi
    obtain ⟨hperm, heq⟩ := ih hrest hc
    exact ⟨(hperm.cons i).trans (List.perm_cons_erase hmem).symm, heq⟩

end Series

theorem Func.Ordered.not_mutual {f : Func} {order : List RegionId} (h : f.Ordered order) {p q : RegionId}
    (hp : p ∈ order) (hq : q ∈ order) (hpq : p ∈ f.producers q) (hqp : q ∈ f.producers p) : False := by
  obtain ⟨before, after, heq⟩ := List.append_of_mem hp
  have hafter := h.mem_after heq hq hpq
  have hbefore := h.producers before p after heq q hqp
  have hnodup := h.nodup
  rw [heq, List.nodup_append] at hnodup
  exact hnodup.2.2 q hbefore q (List.mem_cons_of_mem p hafter) rfl

namespace Inlining

/-- Sound, with an order of its regions: what a splice needs and keeps. -/
structure Ready (f : Func) : Prop where
  sound : f.Sound
  ordered : ∃ order, f.Ordered order

section Spliceable

variable {f : Func} {c : Candidate} {P C : Region} {B : Body} {temp : TempId} {slot : Nat}
  {offset : Offset} {dP dC : Box} (S : Spliceable f c P C B temp slot offset dP dC) (hf : f.Sound)

include S hf

theorem Spliceable.mem_producers : c.producer ∈ f.producers c.consumer := by
  obtain ⟨x, hx, hp⟩ := S.exists_temp hf
  exact Func.mem_producers.mpr ⟨C, temp, x, S.consumer, List.mem_of_getElem? S.operand, hx, hp⟩

theorem Spliceable.producers_cases {id q : RegionId} (h : q ∈ (applySplice f c).producers id) :
    q ≠ c.producer ∧ (q ∈ f.producers id ∨ (id = c.consumer ∧ q ∈ f.producers c.producer)) := by
  obtain ⟨r, t, x, hr, ht, hx, rfl⟩ := Func.mem_producers.mp h
  obtain ⟨_, hx'⟩ := S.temp_cases hx
  refine ⟨?_, ?_⟩
  · obtain ⟨r', hr', _⟩ := (S.sound_applySplice hf).produced t x hx
    exact (S.region_cases hr').1
  · obtain ⟨_, ⟨rfl, rfl⟩ | ⟨_, hr⟩⟩ := S.region_cases hr
    · rcases mem_operands_mergeRegion ht with ht | ht
      · exact .inl (Func.mem_producers.mpr ⟨C, t, x, S.consumer, ht, hx', rfl⟩)
      · exact .inr ⟨rfl, Func.mem_producers.mpr ⟨P, t, x, S.producer, ht, hx', rfl⟩⟩
    · exact .inl (Func.mem_producers.mpr ⟨r, t, x, hr, ht, hx', rfl⟩)

theorem Spliceable.ordered_applySplice {order : List RegionId} (h : f.Ordered order) :
    (applySplice f c).Ordered (order.erase c.producer) := by
  have hperm : (order.erase c.producer).Perm (applySplice f c).regionIds := by
    rw [S.regionIds_applySplice]
    exact h.perm.erase c.producer
  refine ⟨⟨h.nodup.erase c.producer, fun id hid => hperm.mem_iff.mp hid, ?_⟩, hperm⟩
  intro before id after heq q hq
  obtain ⟨hne, hcases⟩ := S.producers_cases hf hq
  rw [h.nodup.erase_eq_filter, List.filter_eq_append_iff] at heq
  obtain ⟨l, l', rfl, rfl, heq⟩ := heq
  obtain ⟨m, m', rfl, hm, _, _⟩ := List.filter_eq_cons_iff.mp heq
  -- in front of `id` there was, besides what is there now, at most the producer that is gone
  have hfront : ∀ q, q ≠ c.producer → q ∈ l ++ m → q ∈ l.filter (· != c.producer) := by
    intro q hq hmem
    rcases List.mem_append.mp hmem with hmem | hmem
    · exact List.mem_filter.mpr ⟨hmem, by simpa using hq⟩
    · exact absurd (by simpa using hm q hmem) hq
  have hsplit : l ++ (m ++ id :: m') = (l ++ m) ++ id :: m' := (List.append_assoc _ _ _).symm
  refine hfront q hne ?_
  rcases hcases with hold | ⟨rfl, hnew⟩
  · exact h.producers (l ++ m) id m' hsplit q hold
  · have hp := h.producers (l ++ m) c.consumer m' hsplit c.producer (S.mem_producers hf)
    obtain ⟨a, b, hab⟩ := List.append_of_mem hp
    have hmem := h.producers a c.producer (b ++ c.consumer :: m') (by rw [hsplit, hab]; simp) q hnew
    rw [hab]
    exact List.mem_append_left _ hmem

end Spliceable

/-- Splices made one after the other, each of a region that was found to be a candidate. -/
inductive Splices : Func → List RegionId → Func → Prop
  | nil (f : Func) : Splices f [] f
  | cons {f g : Func} {id : RegionId} {ids : List RegionId} {c : Candidate}
      (first : candidate? f id = some c) (rest : Splices (applySplice f c) ids g) :
      Splices f (id :: ids) g

/-- A splice as the names show it. -/
def OutlineStep (V : Outline) (id : RegionId) (W : Outline) : Prop :=
  ∃ f c, Ready f ∧ f.outline = V ∧ candidate? f id = some c ∧ (applySplice f c).outline = W

theorem Ready.applySplice {f : Func} (hf : Ready f) {id : RegionId} {c : Candidate}
    (h : candidate? f id = some c) : Ready (applySplice f c) := by
  obtain ⟨P, C, B, temp, slot, offset, dP, dC, S⟩ := spliceable_of_candidate h
  obtain ⟨order, ho⟩ := hf.ordered
  exact ⟨S.sound_applySplice hf.sound, _, S.ordered_applySplice hf.sound ho⟩

theorem Site.outline_applySplice {f : Func} (hf : f.Sound) {c : Candidate} {P C : NamedRegion}
    {temp : TempId}
    {offset : Offset} (S : Site f.outline c P C temp offset) :
    (Inlining.applySplice f c).outline = f.outline.splice c P := by
  obtain ⟨P', C', B, slot, dP, dC, S'⟩ := S.spliceable
  cases (S'.site hf).producer.symm.trans S.producer
  exact S'.outline_applySplice hf

theorem Site.outlineStep {f : Func} (hf : Ready f) {c : Candidate} {P C : NamedRegion} {temp : TempId}
    {offset : Offset} (S : Site f.outline c P C temp offset) :
    OutlineStep f.outline c.producer (f.outline.splice c P) :=
  ⟨f, c, hf, rfl, (candidate?_eq_some_iff hf.sound).mpr ⟨rfl, P, C, temp, offset, S⟩,
    S.outline_applySplice hf.sound⟩

theorem OutlineStep.exists_site {V W : Outline} {id : RegionId} (h : OutlineStep V id W) :
    ∃ c P C temp offset, Site V c P C temp offset ∧ c.producer = id ∧ W = V.splice c P := by
  obtain ⟨f, c, hf, rfl, hc, rfl⟩ := h
  obtain ⟨hid, P, C, temp, offset, S⟩ := (candidate?_eq_some_iff hf.sound).mp hc
  exact ⟨c, P, C, temp, offset, S, hid, S.outline_applySplice hf.sound⟩

theorem Ready.acyclic {f : Func} (hf : Ready f) {c d : Candidate} {P C Q D : NamedRegion} {t u : TempId}
    {o o' : Offset} (S : Site f.outline c P C t o) (T : Site f.outline d Q D u o') :
    ¬ (d.consumer = c.producer ∧ c.consumer = d.producer) := by
  rintro ⟨hdc, hcd⟩
  obtain ⟨P', C', B, slot, dP, dC, S'⟩ := S.spliceable
  obtain ⟨Q', D', B', slot', dQ, dD, T'⟩ := T.spliceable
  obtain ⟨order, ho⟩ := hf.ordered
  have hpq := S'.mem_producers hf.sound
  have hqp := T'.mem_producers hf.sound
  rw [hdc, ← hcd] at hqp
  exact ho.not_mutual (ho.mem_iff.mpr ⟨P', S'.producer⟩) (ho.mem_iff.mpr ⟨C', S'.consumer⟩) hpq hqp

theorem commuting_outlineStep : Commuting OutlineStep where
  unique := by
    rintro V id W W' ⟨f, c, hf, rfl, hc, rfl⟩ h'
    obtain ⟨c', P', C', t', o', S', hid', rfl⟩ := h'.exists_site
    have hc' := (candidate?_eq_some_iff hf.sound).mpr ⟨hid', P', C', t', o', S'⟩
    cases hc.symm.trans hc'
    exact S'.outline_applySplice hf.sound
  join := by
    rintro V i j W W' hij ⟨f, c, hf, rfl, hc, rfl⟩ h'
    obtain ⟨rfl, P, C, t, o, S⟩ := (candidate?_eq_some_iff hf.sound).mp hc
    obtain ⟨d, Q, D, u, o', T, rfl, rfl⟩ := h'.exists_site
    have hd := (candidate?_eq_some_iff hf.sound).mpr ⟨rfl, Q, D, u, o', T⟩
    have hacyclic := hf.acyclic S T
    obtain ⟨D', p, T'⟩ := S.after T (Ne.symm hij) hacyclic
    obtain ⟨C', p', S'⟩ := T.after S hij fun h => hacyclic ⟨h.2, h.1⟩
    rw [← S.outline_applySplice hf.sound] at T'
    rw [← T.outline_applySplice hf.sound] at S'
    have hstep := T'.outlineStep (hf.applySplice hc)
    have hstep' := S'.outlineStep (hf.applySplice hd)
    rw [S.outline_applySplice hf.sound, S.splice_comm T (Ne.symm hij)] at hstep
    rw [T.outline_applySplice hf.sound] at hstep'
    rw [S.outline_applySplice hf.sound]
    exact ⟨_, hstep, hstep'⟩

theorem Splices.series {f g : Func} {ids : List RegionId} (h : Splices f ids g) (hf : Ready f) :
    Ready g ∧ Series OutlineStep f.outline ids g.outline ∧
      ids.length + g.regionIds.length = f.regionIds.length := by
  induction h with
  | nil f => exact ⟨hf, .nil _, by simp⟩
  | @cons f g id ids c first rest ih =>
    obtain ⟨hg, hseries, hlen⟩ := ih (hf.applySplice first)
    obtain ⟨P, C, B, temp, slot, offset, dP, dC, S⟩ := spliceable_of_candidate first
    have hone := S.length_regionIds
    refine ⟨hg, .cons ⟨f, c, hf, rfl, first, rfl⟩ hseries, ?_⟩
    rw [List.length_cons]
    omega

theorem Exhausted.not_outlineStep {f : Func} (h : Exhausted f) (hf : f.Sound) (id : RegionId)
    (W : Outline) :
    ¬ OutlineStep f.outline id W := by
  intro hstep
  obtain ⟨c, P, C, temp, offset, S, hid, _⟩ := hstep.exists_site
  have hc := (candidate?_eq_some_iff hf).mpr ⟨hid, P, C, temp, offset, S⟩
  rw [h id] at hc
  cases hc

theorem Splices.live {f g : Func} {ids : List RegionId} (h : Splices f ids g) :
    ids.Nodup ∧ ∀ id, id ∈ ids → ∃ r, f.region? id = some r := by
  induction h with
  | nil f => simp
  | @cons f g i ids c first rest ih =>
    obtain ⟨P, C, B, temp, slot, offset, dP, dC, S⟩ := spliceable_of_candidate first
    obtain ⟨_, _, rfl, _⟩ := candidate?_cases first
    obtain ⟨hnodup, hlive⟩ := ih
    have hrest : ∀ id, id ∈ ids → id ≠ c.producer ∧ ∃ r, f.region? id = some r := by
      intro id hid
      obtain ⟨r, hr⟩ := hlive id hid
      obtain ⟨hne, ⟨rfl, _⟩ | ⟨_, hr⟩⟩ := S.region_cases hr
      · exact ⟨hne, C, S.consumer⟩
      · exact ⟨hne, r, hr⟩
    refine ⟨List.nodup_cons.mpr ⟨fun hmem => (hrest _ hmem).1 rfl, hnodup⟩, ?_⟩
    intro id hid
    rcases List.mem_cons.mp hid with rfl | hid
    · exact ⟨P, S.producer⟩
    · exact (hrest id hid).2

theorem Spliceable.regionName_applySplice {f : Func} {c : Candidate} {P C : Region} {B : Body}
    {temp : TempId}
    {slot : Nat} {offset : Offset} {dP dC : Box} (S : Spliceable f c P C B temp slot offset dP dC)
    {id : RegionId} (hid : id ≠ c.producer) :
    regionName (Inlining.applySplice f c) id = regionName f id := by
  rw [regionName, regionName, S.region?_applySplice, if_neg hid]
  split
  · next hc => rw [hc, S.consumer, Option.map_some, Option.map_some, name_mergeRegion]
  · rfl

/-- The rounds of inlining are splices, one for each region that is reported, and none of them fails. -/
theorem splices_settle (fuel : Nat) {f : Func} (hf : Ready f) (made : List Splice) :
    ∃ g ids made', settle fuel f made = (g, .ok (made ++ made')) ∧ Splices f ids g ∧
      made'.map (·.producer) = ids.map (regionName f) := by
  induction fuel generalizing f made with
  | zero => exact ⟨f, [], [], by simp [settle], .nil f, rfl⟩
  | succ fuel ih =>
    obtain ⟨order, ho⟩ := hf.ordered
    obtain ⟨found, hfound⟩ := ho.exists_order
    cases hnext : found.findSome? (candidate? f) with
    | none =>
      refine ⟨f, [], [], ?_, .nil f, rfl⟩
      simp [settle, next?, hfound, Except.map, hnext]
    | some c =>
      obtain ⟨id, _, hc⟩ := List.exists_of_findSome?_eq_some hnext
      obtain ⟨P, C, B, temp, slot, offset, dP, dC, S⟩ := spliceable_of_candidate hc
      obtain ⟨_, _, rfl, _⟩ := candidate?_cases hc
      have hround : settle (fuel + 1) f made = settle fuel (Inlining.applySplice f c)
          (made ++ [⟨regionName f c.producer, regionName f c.consumer⟩]) := by
        simp only [settle, next?, hfound, Except.map, hnext]
      obtain ⟨g, ids, made', hsettle, hsplices, hnames⟩ := ih (hf.applySplice hc) _
      have hkept : ids.map (regionName (Inlining.applySplice f c)) = ids.map (regionName f) := by
        have hnew := (Splices.cons hc hsplices).live.1
        apply List.map_congr_left
        intro id hid
        refine S.regionName_applySplice fun he => ?_
        exact (List.nodup_cons.mp hnew).1 (he ▸ hid)
      rw [List.append_assoc] at hsettle
      refine ⟨g, c.producer :: ids, _, hround.trans hsettle, .cons hc hsplices, ?_⟩
      rw [List.singleton_append, List.map_cons, List.map_cons, hnames, hkept]

theorem exists_splices_settle (fuel : Nat) {f : Func} (hf : Ready f) (made : List Splice) :
    ∃ g ids made', settle fuel f made = (g, .ok (made ++ made')) ∧ Splices f ids g ∧
      made'.length = ids.length := by
  obtain ⟨g, ids, made', hsettle, hsplices, hnames⟩ := splices_settle fuel hf made
  exact ⟨g, ids, made', hsettle, hsplices, by simpa using congrArg List.length hnames⟩

/-- Inlining is confluent. Splices of regions that are candidates, picked in any order, come to an
end, and when none is left the same regions have been spliced, and what is there is what inlining
itself makes: the same regions and temporaries, with operations that are equal one by one when each
access is taken by the operand it names. -/
theorem splices_confluent {f₀ f : Func} (hf : Inference.Infers f₀ f) :
    ∃ g made gone, run f = (g, .ok made) ∧ made.length = gone.length ∧
      (∃ h, Splices f gone h ∧ Exhausted h) ∧
      ∀ ids h, Splices f ids h → ids.length ≤ f.regionIds.length ∧
        (Exhausted h → ids.Perm gone ∧ h.outline = g.outline) := by
  obtain ⟨_, order, ha⟩ := hf.analysed
  have hready : Ready f := ⟨ha.sound, order, ha.ordered⟩
  obtain ⟨g, gone, made, hsettle, hsplices, hlen⟩ :=
    exists_splices_settle (f.liveRegions.length + 1) hready []
  rw [List.nil_append] at hsettle
  have hexhausted : Exhausted g := exhausted_settle ha.sound (by simp [Func.regionIds]) hsettle
  obtain ⟨hg, hseries, _⟩ := hsplices.series hready
  have houtline : (if made.isEmpty then g else g.invalidate).outline = g.outline := by
    split <;> rfl
  refine ⟨_, made, gone, run_of_fresh ha.fresh hsettle, hlen, ⟨g, hsplices, hexhausted⟩, ?_⟩
  intro ids h hids
  obtain ⟨hh, hseries', hlen'⟩ := hids.series hready
  refine ⟨by omega, fun hend => ?_⟩
  rw [houtline]
  exact hseries'.perm_and_eq commuting_outlineStep hseries (hend.not_outlineStep hh.sound)
    (hexhausted.not_outlineStep hg.sound)

/-- Two ways that meet: a sum that is negated, and a buffer that is doubled. -/
def meeting : Func where
  name := "meeting"
  rank := 1
  buffers := [⟨"a", .f64, none, .unknown⟩, ⟨"b", .f64, none, .unknown⟩]
  temps := [some ⟨"s", .f64, 0, 0, .unknown⟩, some ⟨"n", .f64, 1, 0, .unknown⟩,
    some ⟨"d", .f64, 2, 0, .unknown⟩, some ⟨"p", .f64, 3, 0, .unknown⟩]
  regions :=
    [some ⟨"sum", [.buffer 0], .ofOps [.access 0 [0], .access 0 [1], .binary .add 0 1] [2], none, [0],
     .unknown⟩, some ⟨"neg", [.temp 0], .ofOps [.access 0 [1], .unary .neg 0] [1], none, [1], .unknown⟩,
     some ⟨"double", [.buffer 1], .ofOps [.access 0 [0], .binary .add 0 0] [1], none, [2], .unknown⟩,
     some ⟨"product", [.temp 1, .temp 2], .ofOps [.access 0 [0], .access 1 [1], .binary .mul 0 1] [2],
       none, [3], .unknown⟩]
  outputs := [⟨3, ⟨[0], [3]⟩⟩]
  stamp := none

/-- From either end all three producers are spliced, and only the order of the operands differs. -/
theorem splices_confluent_meeting : ∃ f g h k made, Inference.Infers meeting f ∧
    Splices f [0, 1, 2] g ∧ Exhausted g ∧ (g.region? 3).map (·.operands) = some [.buffer 0, .buffer 1] ∧
    Splices f [2, 1, 0] h ∧ Exhausted h ∧ (h.region? 3).map (·.operands) = some [.buffer 1, .buffer 0] ∧
    run f = (k, .ok made) ∧ made.length = 3 ∧ g.outline = k.outline ∧ h.outline = k.outline := by
  have hf : Inference.Infers meeting (Inference.run meeting).func := ⟨_, rfl, rfl⟩
  obtain ⟨g, hg, hgend, hgoperands⟩ : ∃ g, Splices (Inference.run meeting).func [0, 1, 2] g ∧
    Exhausted g ∧
      (g.region? 3).map (·.operands) = some [.buffer 0, .buffer 1] :=
    ⟨_, .cons (c := ⟨0, 0, 1, 0, false⟩) rfl (.cons (c := ⟨1, 0, 3, 0, false⟩) rfl
      (.cons (c := ⟨2, 0, 3, 4, false⟩) rfl (.nil _))), exhausted_of_next? rfl, rfl⟩
  obtain ⟨h, hh, hhend, hhoperands⟩ : ∃ h, Splices (Inference.run meeting).func [2, 1, 0] h ∧
    Exhausted h ∧
      (h.region? 3).map (·.operands) = some [.buffer 1, .buffer 0] :=
    ⟨_, .cons (c := ⟨2, 0, 3, 1, false⟩) rfl (.cons (c := ⟨1, 0, 3, 0, false⟩) rfl
      (.cons (c := ⟨0, 0, 3, 0, false⟩) rfl (.nil _))), exhausted_of_next? rfl, rfl⟩
  obtain ⟨k, made, gone, hrun, hmade, _, hall⟩ := splices_confluent hf
  obtain ⟨hperm, hgk⟩ := (hall _ g hg).2 hgend
  obtain ⟨_, hhk⟩ := (hall _ h hh).2 hhend
  exact ⟨_, g, h, k, made, hf, hg, hgend, hgoperands, hh, hhend, hhoperands, hrun,
    hmade.trans hperm.length_eq.symm, hgk, hhk⟩

end Inlining

end Stencil
