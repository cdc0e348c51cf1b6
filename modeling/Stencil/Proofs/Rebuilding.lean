import Stencil.Proofs.Declaring

/-! From declarations back to the function they were written for. The places of a function's
regions and temporaries are not written, so a function comes back as it was if they are all taken
and numbered in the order of the text. -/

set_option autoImplicit false

namespace Stencil

open Reported

theorem getElem?_filterMap_of_isSome {α β : Type} {g : α → Option β} {l : List α}
    (h : ∀ a ∈ l, (g a).isSome = true)
    (i : Nat) : (l.filterMap g)[i]? = l[i]?.bind g := by
  induction l generalizing i with
  | nil => rfl
  | cons a l ih =>
    rw [List.forall_mem_cons] at h
    obtain ⟨b, hb⟩ := Option.isSome_iff_exists.mp h.1
    rw [List.filterMap_cons_some hb]
    cases i with
    | zero => exact hb.symm
    | succ i => exact ih h.2 i

theorem filterMap_range_getElem? {α : Type} (l : List α) :
    (List.range l.length).filterMap (l[·]?) = l := by
  refine List.ext_getElem? fun i => ?_
  rw [getElem?_filterMap_of_isSome (by simp)]
  by_cases hi : i < l.length
  · rw [List.getElem?_range hi]
    rfl
  · rw [List.getElem?_eq_none (by simpa using hi), List.getElem?_eq_none (by simpa using hi)]
    rfl

theorem nodup_map_of_places {α : Type} {l : List α} {g : α → String}
    (h : ∀ (i j : Nat) x y, l[i]? = some x → l[j]? = some y → g x = g y → i = j) : (l.map g).Nodup := by
  rw [List.nodup_iff_getElem?_ne_getElem?]
  intro i j hij hj heq
  rw [List.length_map] at hj
  have hi : i < l.length := Nat.lt_trans hij hj
  rw [List.getElem?_map, List.getElem?_map, List.getElem?_eq_getElem hj,
    List.getElem?_eq_getElem hi] at heq
  have := h i j _ _ (List.getElem?_eq_getElem hi) (List.getElem?_eq_getElem hj) (Option.some.inj heq)
  omega

theorem forall₂_append_right {α β : Type} {R : α → β → Prop} {xs : List α} {as bs : List β}
    (h : List.Forall₂ R xs (as ++ bs)) :
    ∃ ys zs, xs = ys ++ zs ∧ List.Forall₂ R ys as ∧ List.Forall₂ R zs bs :=
  ⟨_, _, (List.take_append_drop as.length xs).symm, List.forall₂_take_append xs as bs h,
    List.forall₂_drop_append xs as bs h⟩

def Item.output? : Item → Option OutputMark
  | .output o => some o
  | _ => none

namespace Func

/-- Every place is taken, and the regions list the temporaries in order. -/
structure Dense (f : Func) (rs : List Region) (ts : List Temporary) : Prop where
  regions : f.regions = rs.map some
  temps : f.temps = ts.map some
  numbered : rs.flatMap (·.results) = List.range ts.length
  stamp : f.stamp = none

def resultTemps (f : Func) (r : Region) : List Temporary := r.results.filterMap f.temp?

variable {f : Func} {rs : List Region} {ts : List Temporary}

theorem Dense.region?_eq (h : f.Dense rs ts) (id : RegionId) : f.region? id = rs[id]? := by
  rw [region?, h.regions, List.getElem?_map]
  cases rs[id]? <;> rfl

theorem Dense.temp?_eq (h : f.Dense rs ts) (t : TempId) : f.temp? t = ts[t]? := by
  rw [temp?, h.temps, List.getElem?_map]
  cases ts[t]? <;> rfl

theorem map_snd_livePlaces {β : Type} (n : Nat) (xs : List β) :
    (livePlaces n (xs.map some)).map (·.2) = xs := by
  induction xs generalizing n with
  | nil => rfl
  | cons x xs ih => simp [livePlaces, ih]

theorem Dense.items_eq (h : f.Dense rs ts) :
    f.items = f.buffers.map .buffer ++ (rs.map .region ++ f.outputs.map .output) := by
  have hlive := congrArg (List.map Item.region) (map_snd_livePlaces 0 rs)
  rw [List.map_map] at hlive
  rw [items, liveRegions, h.regions, ← hlive]
  rfl

theorem Dense.flatMap_resultTemps (h : f.Dense rs ts) : rs.flatMap f.resultTemps = ts := by
  have hproduced : f.resultTemps = fun r => r.results.filterMap (ts[·]?) := by
    funext r
    rw [resultTemps, funext h.temp?_eq]
  rw [hproduced, ← List.filterMap_flatMap, h.numbered, filterMap_range_getElem?]

theorem Sound.getElem?_resultTemps {id : RegionId} {r : Region} (h : f.Sound) (hr : f.region? id = some r)
    {i : Nat}
    {x : Temporary} (hx : (f.resultTemps r)[i]? = some x) : x.producer = id ∧ x.resultIndex = i := by
  rw [resultTemps,
    getElem?_filterMap_of_isSome fun t ht => Option.isSome_iff_exists.mpr (h.exists_temp hr ht)] at hx
  obtain ⟨t, ht, hx⟩ := Option.bind_eq_some_iff.mp hx
  obtain ⟨y, hy, hproducer, hindex⟩ := h.owned id r i t hr ht
  cases hx.symm.trans hy
  exact ⟨hproducer, hindex⟩

theorem Sound.length_resultTemps {id : RegionId} {r : Region} (h : f.Sound) (hr : f.region? id = some r) :
    (f.resultTemps r).length = r.results.length := by
  have hlive := fun t ht => Option.isSome_iff_exists.mpr (h.exists_temp hr (t := t) ht)
  refine Nat.le_antisymm (List.length_filterMap_le _ _) (Nat.le_of_not_lt fun hlt => ?_)
  have hget := getElem?_filterMap_of_isSome hlive (f.resultTemps r).length
  obtain ⟨x, hx⟩ := Option.isSome_iff_exists.mp (hlive _ (List.getElem_mem hlt))
  rw [List.getElem?_eq_getElem hlt, Option.bind_some, hx] at hget
  simp [resultTemps] at hget

end Func

namespace Resolution.Declared

variable {f : Func}

theorem addItems_append {rank : Nat} {d d' : Declared} {is : List ItemDecl}
    (h : addItems rank d is = pure d')
    (js : List ItemDecl) : addItems rank d (is ++ js) = addItems rank d' js := by
  induction is generalizing d with
  | nil =>
    cases pure_eq_pure_iff.mp h
    rfl
  | cons i is ih =>
    cases i with
    | buffer b =>
      obtain ⟨a, ha, hrest⟩ := bind_eq_pure_iff.mp h
      simp only [List.cons_append, addItems, ha]
      exact ih hrest
    | region r =>
      obtain ⟨a, ha, hrest⟩ := bind_eq_pure_iff.mp h
      simp only [List.cons_append, addItems, ha]
      exact ih hrest
    | output o => exact ih h

theorem addItems_buffers {d : Declared} {is : List ItemDecl} {xs : List Buffer}
    (h : List.Forall₂ (ItemDecl.Denotes f) is (xs.map .buffer))
    (hnodup : ((d.buffers ++ xs).map (·.name)).Nodup) :
    addItems f.rank d is = pure { d with buffers := d.buffers ++ xs } := by
  induction xs generalizing d is with
  | nil =>
    cases h
    simp [addItems]
  | cons x xs ih =>
    obtain ⟨i, is, hi, his, rfl⟩ := List.forall₂_cons_right_iff.mp h
    match i, hi with
    | .buffer b, hb =>
      have hassoc : d.buffers ++ x :: xs = d.buffers ++ [x] ++ xs := by simp
      rw [hassoc] at hnodup ⊢
      refine bind_eq_pure_iff.mpr ⟨{ d with buffers := d.buffers ++ [x] }, ?_, ih his hnodup⟩
      refine addBuffer_eq_pure_iff.mpr ⟨x, hb, ?_, rfl⟩
      rw [List.map_append, List.map_append] at hnodup
      intro hmem
      exact (List.nodup_append.mp hnodup.of_append_left).2.2 _ hmem _ (by simp) rfl

theorem addItems_outputs {d : Declared} {is : List ItemDecl} {xs : List OutputMark}
    (h : List.Forall₂ (ItemDecl.Denotes f) is (xs.map .output)) : addItems f.rank d is = pure d := by
  induction xs generalizing is with
  | nil =>
    cases h
    rfl
  | cons x xs ih =>
    obtain ⟨i, is, hi, his, rfl⟩ := List.forall₂_cons_right_iff.mp h
    match i, hi with
    | .output o, _ =>
      change addItems f.rank d is = pure d
      exact ih his

theorem addRegion_denotes {d : Declared} {r : RegionDecl} {x : Region} (hsound : f.Sound)
    (hr : r.Denotes f x)
    (hx : f.region? d.regions.length = some x)
    (hnumbered : x.results = List.range' d.temps.length (f.resultTemps x).length)
    (htemps : ((d.temps ++ f.resultTemps x).map (·.name)).Nodup)
    (hfresh : x.name ∉ d.regions.map (·.1.name.text)) :
    addRegion f.rank d r = pure { d with
      temps := d.temps ++ f.resultTemps x, regions := d.regions ++ [(r, x.results)] } := by
  have hbefore : (d.temps.map (·.name)).Nodup := by
    rw [List.map_append] at htemps
    exact htemps.of_append_left
  refine (addRegion_eq_pure_iff hbefore).mpr ⟨?_, f.resultTemps x, ?_, by rw [← hnumbered]⟩
  · rwa [hr.name]
  · refine ⟨hr.types, hr.results, htemps, fun i y hy => ?_⟩
    rw [Nat.zero_add]
    exact hsound.getElem?_resultTemps hx hy

theorem addItems_regions {d : Declared} {is : List ItemDecl} {xs : List Region} {n : Nat}
    (hsound : f.Sound)
    (h : List.Forall₂ (ItemDecl.Denotes f) is (xs.map .region))
    (hids : ∀ (j : Nat) x, xs[j]? = some x → f.region? (d.regions.length + j) = some x)
    (hnumbered : xs.flatMap (·.results) = List.range' d.temps.length n)
    (htemps : ((d.temps ++ xs.flatMap f.resultTemps).map (·.name)).Nodup)
    (hregions : (d.regions.map (·.1.name.text) ++ xs.map (·.name)).Nodup) :
    ∃ ds, List.Forall₂ (RegionDecl.Denotes f) ds xs ∧
      addItems f.rank d is = pure { d with
        temps := d.temps ++ xs.flatMap f.resultTemps
        regions := d.regions ++ ds.zip (xs.map (·.results)) } := by
  induction xs generalizing d is n with
  | nil =>
    cases h
    exact ⟨[], .nil, by simp [addItems]⟩
  | cons x xs ih =>
    obtain ⟨i, is, hi, his, rfl⟩ := List.forall₂_cons_right_iff.mp h
    match i, hi with
    | .region r, hr =>
      have hx : f.region? d.regions.length = some x := hids 0 x rfl
      -- the first results stand in front of all the others
      rw [List.flatMap_cons] at hnumbered
      obtain ⟨k, _, hfirst, hrest⟩ := List.range'_eq_append_iff.mp hnumbered.symm
      have hk : k = (f.resultTemps x).length := by
        rw [hsound.length_resultTemps hx, hfirst, List.length_range']
      rw [hk] at hfirst
      rw [hk, Nat.mul_one, ← List.length_append] at hrest
      have hassoc : d.temps ++ (x :: xs).flatMap f.resultTemps =
          d.temps ++ f.resultTemps x ++ xs.flatMap f.resultTemps := by simp
      rw [hassoc] at htemps ⊢
      have hstep := addRegion_denotes hsound hr hx hfirst
        (by rw [List.map_append] at htemps; exact htemps.of_append_left)
        (fun hmem => (List.nodup_append.mp hregions).2.2 _ hmem _ (by simp) rfl)
      have hids : ∀ (j : Nat) y, xs[j]? = some y →
          f.region? ((d.regions ++ [(r, x.results)]).length + j) = some y := by
        intro j y hy
        have := hids (j + 1) y hy
        rwa [List.length_append, List.length_singleton, Nat.add_assoc, Nat.add_comm 1 j]
      have hregions : ((d.regions ++ [(r, x.results)]).map (·.1.name.text) ++ xs.map (·.name)).Nodup := by
        simpa [hr.name] using hregions
      obtain ⟨ds, hds, hitems⟩ := ih (d := { d with
        temps := d.temps ++ f.resultTemps x, regions :=
      d.regions ++ [(r, x.results)] }) his hids hrest htemps hregions
      refine ⟨r :: ds, .cons hr hds, bind_eq_pure_iff.mpr ⟨_, hstep, ?_⟩⟩
      rw [hitems]
      simp

end Resolution.Declared

namespace Func

variable {f : Func} {rs : List Region} {ts : List Temporary}

/-- The names in scope of a function without empty places. -/
def scope (f : Func) (ts : List Temporary) : Resolution.Scope :=
  ⟨f.rank, f.buffers.map (·.name), ts.map (·.name)⟩

theorem Dense.nodup_temps (h : f.Dense rs ts) (hlegible : f.Legible) : (ts.map (·.name)).Nodup :=
  nodup_map_of_places fun i j x y hx hy =>
    hlegible.temps_inj i j x y ((h.temp?_eq i).trans hx) ((h.temp?_eq j).trans hy)

theorem Dense.nodup_regions (h : f.Dense rs ts) (hlegible : f.Legible) : (rs.map (·.name)).Nodup :=
  nodup_map_of_places fun i j x y hx hy =>
    hlegible.regions_inj i j x y ((h.region?_eq i).trans hx) ((h.region?_eq j).trans hy)

theorem Dense.idxOf?_temp (h : f.Dense rs ts) (hlegible : f.Legible) {t : TempId} {x : Temporary}
    (hx : f.temp? t = some x) : (f.scope ts).temps.idxOf? x.name = some t := by
  refine idxOf?_of_nodup (h.nodup_temps hlegible) ?_
  rw [scope, List.getElem?_map, ← h.temp?_eq, hx]
  rfl

theorem Dense.lookup_eq (h : f.Dense rs ts) (hlegible : f.Legible) {d : OperandDecl} {o : Operand}
    (hd : d.Names f o) : (f.scope ts).lookup d = some o := by
  match d, o, hd with
  | .temp n, .temp t, ⟨x, hx, hn⟩ =>
    rw [Resolution.Scope.lookup, hn, h.idxOf?_temp hlegible hx]
    rfl
  | .buffer n, .buffer b, ⟨x, hx, hn⟩ =>
    have hb : (f.buffers.map (·.name))[b]? = some x.name := by
      rw [List.getElem?_map]
      exact congrArg (Option.map _) hx
    rw [Resolution.Scope.lookup, hn, scope, idxOf?_of_nodup hlegible.buffers_nodup hb]
    rfl

theorem map_text_of_names {ds : List OperandDecl} {os : List Operand}
    (h : List.Forall₂ (OperandDecl.Names f) ds os) : ds.map OperandDecl.text = os.map f.operandName := by
  induction h with
  | nil => rfl
  | cons hd _ ih => rw [List.map_cons, List.map_cons, hd.text_eq, ih]

theorem Printable.region_eq (h : f.Printable) (hdense : f.Dense rs ts) {id : RegionId} {r : Region}
    (hr : f.region? id = some r) {d : RegionDecl} (hd : d.Denotes f r) :
    Resolution.region (f.scope ts) id d r.results r.shape = pure r := by
  have hwritten : d.operands.map OperandDecl.text = f.written r := map_text_of_names hd.operands
  have hlen : d.results.length = r.results.length := by
    have := congrArg List.length hd.results
    rw [List.length_map, List.length_map] at this
    rw [← this]
    exact h.sound.length_resultTemps hr
  refine Resolution.region_eq_pure_iff.mpr ⟨hd.name.symm, rfl, rfl, ?_, ?_, ?_⟩
  · refine Resolution.operands_eq_pure_iff.mpr
      ⟨hd.operands.imp fun _ _ hn => hdense.lookup_eq h.legible hn, ?_, fun _ _ => List.not_mem_nil⟩
    rw [hwritten]
    exact h.nodup_written hr
  · rw [hwritten, hlen]
    exact hd.body _
  · rw [hwritten, hlen]
    exact hd.epilogue _

theorem Printable.resolveRegions_eq (h : f.Printable) (hdense : f.Dense rs ts)
    {declared : Resolution.Declared}
    (htemps : declared.temps = ts) {id : RegionId} {ds : List RegionDecl} {xs : List Region}
    (hds : List.Forall₂ (RegionDecl.Denotes f) ds xs)
    (hids : ∀ (j : Nat) x, xs[j]? = some x → f.region? (id + j) = some x) :
    declared.resolveRegions (f.scope ts) id (ds.zip (xs.map (·.results))) = pure xs := by
  induction hds generalizing id with
  | nil => rfl
  | @cons d x ds xs hd _ ih =>
    have hx : f.region? id = some x := hids 0 x rfl
    refine Resolution.Declared.resolveRegions_cons_eq_pure_iff.mpr
      ⟨x, xs, ?_, h.region_eq hdense hx hd, ih fun j y hy => ?_, rfl⟩
    · have hdomain := hd.domain
      have hjoined : declared.joinedShape x.results = f.resultShape x := by
        rw [Resolution.Declared.joinedShape, htemps, resultShape, funext hdense.temp?_eq]
      cases hdom : d.domain with
      | some b =>
        rw [hdom] at hdomain
        exact hdomain
      | none =>
        rw [hdom] at hdomain
        exact hdomain.trans hjoined.symm
    · have := hids (j + 1) y hy
      rwa [Nat.add_assoc, Nat.add_comm 1 j]

theorem Dense.outputs_eq (h : f.Dense rs ts) (hlegible : f.Legible) {is : List ItemDecl}
    {items : List Item}
    (his : List.Forall₂ (ItemDecl.Denotes f) is items) :
    Resolution.outputs (f.scope ts) is = pure (items.filterMap Item.output?) := by
  induction his with
  | nil => rfl
  | @cons i item is items hi _ ih =>
    match i, item, hi with
    | .buffer _, .buffer _, _ => exact ih
    | .region _, .region _, _ => exact ih
    | .output d, .output o, hd =>
      obtain ⟨x, hx, hn⟩ := hd.temp
      refine Resolution.outputs_cons_eq_pure_iff.mpr ⟨o.temp, o.domain, _, ?_, hd.domain, ih, rfl⟩
      rw [hn]
      exact h.idxOf?_temp hlegible hx

/-- A function without empty places comes back from its declaration. -/
theorem Printable.function_eq (h : f.Printable) (hdense : f.Dense rs ts) {d : FuncDecl}
    (hd : d.Denotes f) :
    Resolution.function d = pure (some f) := by
  have hitems := hd.items
  rw [hdense.items_eq] at hitems
  obtain ⟨is₁, is₂, heq, hbuffers, hrest⟩ := forall₂_append_right hitems
  obtain ⟨is₂, is₃, rfl, hregions, houtputs⟩ := forall₂_append_right hrest
  have hids : ∀ (j : Nat) x, rs[j]? = some x → f.region? (0 + j) = some x := by
    intro j x hx
    rw [hdense.region?_eq, Nat.zero_add, hx]
  obtain ⟨ds, hds, hadd⟩ :=
    Resolution.Declared.addItems_regions (d := ⟨f.buffers, [], []⟩) (n := ts.length) h.sound
    hregions hids (by rw [hdense.numbered, List.range_eq_range']; rfl)
    (by simpa [hdense.flatMap_resultTemps] using hdense.nodup_temps h.legible)
    (by simpa using hdense.nodup_regions h.legible)
  rw [hdense.flatMap_resultTemps] at hadd
  have hfirst : Resolution.Declared.addItems f.rank .empty is₁ = pure ⟨f.buffers, [], []⟩ :=
    Resolution.Declared.addItems_buffers hbuffers h.legible.buffers_nodup
  have hadd : Resolution.Declared.addItems f.rank .empty d.items =
      pure ⟨f.buffers, ts, ds.zip (rs.map (·.results))⟩ := by
    rw [heq, Resolution.Declared.addItems_append hfirst, Resolution.Declared.addItems_append hadd,
      Resolution.Declared.addItems_outputs houtputs]
    rfl
  have houts := hdense.outputs_eq h.legible hd.items
  have hmarks : f.items.filterMap Item.output? = f.outputs := by
    simp [items, List.filterMap_map, Function.comp_def, Item.output?]
  rw [hmarks] at houts
  exact Resolution.function_eq_pure_iff.mpr ⟨h.legible.rank_pos, hd.rank, hd.name.symm, hdense.stamp,
    _, rs, hadd, rfl, hdense.temps, hdense.regions, h.resolveRegions_eq hdense rfl hds hids, houts⟩

end Func

namespace Resolution

theorem functions_eq {seen : List Name} {ds : List FuncDecl} {fs : List Func}
    (h : List.Forall₂ (fun d f => function d = pure (some f)) ds fs)
    (hnames : (ds.map (·.name.text)).Nodup) (hseen : ∀ d ∈ ds, d.name.text ∉ seen.map (·.text)) :
    functions seen ds = pure fs := by
  induction h generalizing seen with
  | nil => rfl
  | @cons d f ds fs hd _ ih =>
    rw [List.map_cons, List.nodup_cons] at hnames
    rw [List.forall_mem_cons] at hseen
    have hfind : seen.find? (·.text = d.name.text) = none := by
      rw [List.find?_eq_none]
      intro n hn heq
      exact hseen.1 (List.mem_map.mpr ⟨n, hn, of_decide_eq_true heq⟩)
    have hrest : functions (d.name :: seen) ds = pure fs := by
      refine ih hnames.2 fun e he hmem => ?_
      rcases List.mem_cons.mp hmem with heq | hmem
      · exact hnames.1 (List.mem_map.mpr ⟨e, he, heq⟩)
      · exact hseen.2 e he hmem
    simp only [functions, hfind, hd, hrest]
    rfl

end Resolution

theorem Program.load_text {p : Program} (h : ∀ f ∈ p.functions, f.Printable ∧ ∃ rs ts, f.Dense rs ts)
    (hnames : (p.functions.map (·.name)).Nodup) : load p.text = .ok p := by
  have hprintable : ∀ f ∈ p.functions, f.Printable := fun f hf => (h f hf).1
  have hscan : Lexer.scan p.text.toList = p.tokens.map some := by
    have := p.spells_text hprintable [] rfl
    rwa [Lexer.scan_nil, List.append_nil, List.append_nil] at this
  obtain ⟨htokens, herrors⟩ := Lexer.lex_of_scan hscan
  obtain ⟨ds, hread, hds⟩ := p.reads_functions hprintable _ [] htokens rfl
  rw [List.append_nil] at hread
  have hfunctions : Resolution.functions [] ds = pure p.functions := by
    have hnames : (ds.map (·.name.text)).Nodup := by
      have : ds.map (·.name.text) = p.functions.map (·.name) := by
        rw [← List.forall₂_eq_eq_eq, List.forall₂_map_left_iff, List.forall₂_map_right_iff]
        exact hds.imp fun _ _ hd => hd.2.name
      rwa [this]
    refine Resolution.functions_eq (hds.imp fun d f hd => ?_) hnames fun _ _ => List.not_mem_nil
    obtain ⟨hf, hd⟩ := hd
    obtain ⟨hprintable, rs, ts, hdense⟩ := h f hf
    exact hprintable.function_eq hdense hd
  obtain ⟨span, hparsed⟩ : ∃ span, Parsed.ofSource p.text = ⟨[], some ⟨ds, span⟩⟩ := by
    simp only [Parsed.ofSource, ProgramDecl.ofTokens, hread, herrors]
    exact ⟨_, rfl⟩
  simp only [load, hparsed, ofDecl, hfunctions]
  rfl

end Stencil
