import Stencil.Func.Structure
import Stencil.Proofs.Body

/-! Looking things up in a function, and functions that differ in their annotations only. -/

set_option autoImplicit false

namespace Stencil

theorem mem_livePlaces {β : Type} {xs : List (Option β)} {start i : Nat} {x : β} :
    (i, x) ∈ livePlaces start xs ↔ start ≤ i ∧ xs[i - start]? = some (some x) := by
  induction xs generalizing start with
  | nil => simp [livePlaces]
  | cons y ys ih =>
    have hcons : (start ≤ i ∧ (y :: ys)[i - start]? = some (some x)) ↔
        (i = start ∧ y = some x) ∨ (i, x) ∈ livePlaces (start + 1) ys := by
      rw [ih]
      by_cases hi : i = start
      · have hn : ¬ start + 1 ≤ start := by omega
        simp [hi, hn]
      · by_cases hlt : start < i
        · have hs : i - start = (i - (start + 1)) + 1 := by omega
          rw [hs, List.getElem?_cons_succ]
          simp only [hi, false_and, false_or]
          exact ⟨fun h => ⟨hlt, h.2⟩, fun h => ⟨by omega, h.2⟩⟩
        · simp only [hi, false_and, false_or]
          exact ⟨fun h => ⟨by omega, by omega⟩, fun h => ⟨by omega, by omega⟩⟩
    rw [hcons]
    cases y with
    | none => simp [livePlaces]
    | some y =>
      simp only [livePlaces, List.mem_cons, Prod.mk.injEq, Option.some.injEq]
      constructor
      · rintro (⟨hi, hx⟩ | h)
        · exact .inl ⟨hi, hx.symm⟩
        · exact .inr h
      · rintro (⟨hi, hx⟩ | h)
        · exact .inl ⟨hi, hx.symm⟩
        · exact .inr h

theorem map_fst_livePlaces {β : Type} (xs : List (Option β)) (start : Nat) :
    (livePlaces start xs).map (·.1) =
      (List.range' start xs.length).filter fun i => (xs[i - start]?.join).isSome := by
  induction xs generalizing start with
  | nil => rfl
  | cons y ys ih =>
    have htail : ((List.range' (start + 1) ys.length).filter fun i =>
        ((y :: ys)[i - start]?.join).isSome) =
          (List.range' (start + 1) ys.length).filter fun i => (ys[i - (start + 1)]?.join).isSome := by
      apply List.filter_congr
      intro i hi
      have hle : start + 1 ≤ i := (List.mem_range'_1.mp hi).1
      have hs : i - start = (i - (start + 1)) + 1 := by omega
      rw [hs, List.getElem?_cons_succ]
    rw [List.length_cons, List.range'_succ, List.filter_cons]
    simp only [Nat.sub_self, List.getElem?_cons_zero, Option.join_some]
    cases y with
    | none => simp [livePlaces, ih, htail]
    | some y => simp [livePlaces, ih, htail]

namespace Func

theorem region?_eq_some_iff {f : Func} {id : RegionId} {r : Region} :
    f.region? id = some r ↔ f.regions[id]? = some (some r) := by
  unfold region?
  cases f.regions[id]? <;> simp

theorem temp?_eq_some_iff {f : Func} {t : TempId} {x : Temporary} :
    f.temp? t = some x ↔ f.temps[t]? = some (some x) := by
  unfold temp?
  cases f.temps[t]? <;> simp

theorem mem_liveRegions {f : Func} {id : RegionId} {r : Region} :
    (id, r) ∈ f.liveRegions ↔ f.region? id = some r := by
  rw [liveRegions, mem_livePlaces, region?_eq_some_iff]
  simp

theorem mem_liveTemps {f : Func} {t : TempId} {x : Temporary} :
    (t, x) ∈ f.liveTemps ↔ f.temp? t = some x := by
  rw [liveTemps, mem_livePlaces, temp?_eq_some_iff]
  simp

theorem regionIds_eq (f : Func) :
    f.regionIds = (List.range f.regions.length).filter fun id => (f.region? id).isSome := by
  rw [regionIds, liveRegions, map_fst_livePlaces, ← List.range_eq_range']
  rfl

theorem nodup_regionIds (f : Func) : f.regionIds.Nodup := by
  rw [regionIds_eq]
  exact List.nodup_range.filter _

theorem mem_regionIds {f : Func} {id : RegionId} : id ∈ f.regionIds ↔ ∃ r, f.region? id = some r := by
  rw [regionIds, List.mem_map]
  constructor
  · rintro ⟨⟨i, r⟩, hm, rfl⟩
    exact ⟨r, mem_liveRegions.mp hm⟩
  · rintro ⟨r, hr⟩
    exact ⟨(id, r), mem_liveRegions.mpr hr, rfl⟩

theorem region?_modifyRegion (f : Func) (id id' : RegionId) (g : Region → Region) :
    (f.modifyRegion id g).region? id' = if id = id' then (f.region? id').map g else f.region? id' := by
  simp only [region?, modifyRegion, List.getElem?_modify]
  by_cases h : id = id'
  · simp only [h, if_true]
    cases f.regions[id']? with
    | none => rfl
    | some x => cases x <;> rfl
  · simp [h]

theorem region?_modifyRegion_self {f : Func} {id : RegionId} {r : Region} (h : f.region? id = some r)
    (g : Region → Region) : (f.modifyRegion id g).region? id = some (g r) := by
  rw [region?_modifyRegion, if_pos rfl, h, Option.map_some]

theorem region?_modifyRegion_of_ne (f : Func) {id id' : RegionId} (h : id' ≠ id) (g : Region → Region) :
    (f.modifyRegion id g).region? id' = f.region? id' := by
  rw [region?_modifyRegion, if_neg (Ne.symm h)]

theorem region_cases_modifyRegion {f : Func} {id id' : RegionId} {g : Region → Region} {r r' : Region}
    (hr : f.region? id = some r) (h : (f.modifyRegion id g).region? id' = some r') :
    (id' = id ∧ r' = g r) ∨ (id' ≠ id ∧ f.region? id' = some r') := by
  by_cases he : id' = id
  · subst he
    rw [region?_modifyRegion_self hr] at h
    exact .inl ⟨rfl, (Option.some.inj h).symm⟩
  · rw [region?_modifyRegion_of_ne f he] at h
    exact .inr ⟨he, h⟩

theorem modifyRegion_const {f : Func} {id : RegionId} {r : Region} (h : f.region? id = some r)
    (F : Region → Region) : f.modifyRegion id (fun _ => F r) = f.modifyRegion id F := by
  have hplace := region?_eq_some_iff.mp h
  simp only [modifyRegion]
  congr 1
  apply List.ext_getElem?
  intro i
  rw [List.getElem?_modify, List.getElem?_modify]
  by_cases hi : id = i
  · subst hi
    simp [hplace]
  · simp [hi]

theorem temp?_modifyTemp (f : Func) (t t' : TempId) (g : Temporary → Temporary) :
    (f.modifyTemp t g).temp? t' = if t = t' then (f.temp? t').map g else f.temp? t' := by
  simp only [temp?, modifyTemp, List.getElem?_modify]
  by_cases h : t = t'
  · simp only [h, if_true]
    cases f.temps[t']? with
    | none => rfl
    | some x => cases x <;> rfl
  · simp [h]

theorem buffer?_modifyBuffer (f : Func) (b b' : BufferId) (g : Buffer → Buffer) :
    (f.modifyBuffer b g).buffer? b' = if b = b' then (f.buffer? b').map g else f.buffer? b' := by
  simp only [buffer?, modifyBuffer, List.getElem?_modify]
  by_cases h : b = b' <;> simp [h]

/-- The functions differ at most in their annotations and stamps. -/
def SameStructure (f g : Func) : Prop := f.clearShapes = g.clearShapes

theorem SameStructure.refl (f : Func) : f.SameStructure f := rfl

theorem SameStructure.symm {f g : Func} (h : f.SameStructure g) : g.SameStructure f := Eq.symm h

theorem SameStructure.trans {f g k : Func} (h : f.SameStructure g) (h' : g.SameStructure k) :
    f.SameStructure k := Eq.trans h h'

theorem region?_clearShapes (f : Func) (id : RegionId) :
    f.clearShapes.region? id = (f.region? id).map fun r => { r with shape := .unknown } := by
  simp only [region?, clearShapes, List.getElem?_map]
  cases f.regions[id]? with
  | none => rfl
  | some x => cases x <;> rfl

theorem temp?_clearShapes (f : Func) (t : TempId) :
    f.clearShapes.temp? t = (f.temp? t).map fun x => { x with shape := .unknown } := by
  simp only [temp?, clearShapes, List.getElem?_map]
  cases f.temps[t]? with
  | none => rfl
  | some x => cases x <;> rfl

theorem buffer?_clearShapes (f : Func) (b : BufferId) :
    f.clearShapes.buffer? b = (f.buffer? b).map fun x => { x with required := .unknown } := by
  simp [buffer?, clearShapes]

@[simp] theorem clearShapes_clearShapes (f : Func) : f.clearShapes.clearShapes = f.clearShapes := by
  simp only [clearShapes, List.map_map, Func.mk.injEq, true_and, and_true]
  refine ⟨?_, ?_, ?_⟩
  · rfl
  · apply List.map_congr_left
    intro x _
    cases x <;> rfl
  · apply List.map_congr_left
    intro x _
    cases x <;> rfl

theorem sameStructure_clearShapes (f : Func) : f.SameStructure f.clearShapes :=
  (clearShapes_clearShapes f).symm

theorem sameStructure_recordStamp (f : Func) : f.SameStructure f.recordStamp := rfl

theorem sameStructure_invalidate (f : Func) : f.SameStructure f.invalidate := rfl

theorem map_modify_of_comp {β γ : Type} {f : β → γ} {g : β → β} (h : ∀ x, f (g x) = f x)
    (xs : List β) (i : Nat) : (xs.modify i g).map f = xs.map f := by
  apply List.ext_getElem?
  intro j
  rw [List.getElem?_map, List.getElem?_map, List.getElem?_modify]
  cases xs[j]? with
  | none => rfl
  | some x =>
    by_cases hij : i = j
    · simp [hij, h]
    · simp [hij]

theorem sameStructure_modifyTemp (f : Func) (t : TempId) (s : Shape) :
    f.SameStructure (f.modifyTemp t fun x => { x with shape := s }) := by
  simp only [SameStructure, clearShapes, modifyTemp]
  rw [map_modify_of_comp (by intro x; cases x <;> rfl)]

theorem sameStructure_modifyBuffer (f : Func) (b : BufferId) (s : Shape) :
    f.SameStructure (f.modifyBuffer b fun x => { x with required := s }) := by
  simp only [SameStructure, clearShapes, modifyBuffer]
  rw [map_modify_of_comp (by intro x; rfl)]

theorem sameStructure_modifyRegion (f : Func) (id : RegionId) (s : Shape) :
    f.SameStructure (f.modifyRegion id fun r => { r with shape := s }) := by
  simp only [SameStructure, clearShapes, modifyRegion]
  rw [map_modify_of_comp (by intro r; cases r <;> rfl)]

section SameStructure

variable {f g : Func} (h : f.SameStructure g)
include h

theorem SameStructure.rank_eq : f.rank = g.rank := by
  have := congrArg Func.rank (show f.clearShapes = g.clearShapes from h)
  exact this

theorem SameStructure.outputs_eq : f.outputs = g.outputs := by
  have := congrArg Func.outputs (show f.clearShapes = g.clearShapes from h)
  exact this

theorem SameStructure.exists_region {id : RegionId} {r : Region} (hr : g.region? id = some r) :
    ∃ r' s, f.region? id = some r' ∧ r = { r' with shape := s } := by
  have hid := congrArg (fun k : Func => k.region? id) h
  simp only [region?_clearShapes, hr, Option.map_some] at hid
  obtain ⟨r', hr', he⟩ := Option.map_eq_some_iff.mp hid
  refine ⟨r', r.shape, hr', ?_⟩
  cases r
  cases r'
  simp only [Region.mk.injEq, and_true] at he ⊢
  obtain ⟨h1, h2, h3, h4, h5⟩ := he
  simp [h1, h2, h3, h4, h5]

theorem SameStructure.exists_temp {t : TempId} {x : Temporary} (hx : g.temp? t = some x) :
    ∃ x' s, f.temp? t = some x' ∧ x = { x' with shape := s } := by
  have ht := congrArg (fun k : Func => k.temp? t) h
  simp only [temp?_clearShapes, hx, Option.map_some] at ht
  obtain ⟨x', hx', he⟩ := Option.map_eq_some_iff.mp ht
  refine ⟨x', x.shape, hx', ?_⟩
  cases x
  cases x'
  simp only [Temporary.mk.injEq, and_true] at he ⊢
  obtain ⟨h1, h2, h3, h4⟩ := he
  simp [h1, h2, h3, h4]

theorem SameStructure.exists_buffer {b : BufferId} {x : Buffer} (hx : g.buffer? b = some x) :
    ∃ x' s, f.buffer? b = some x' ∧ x = { x' with required := s } := by
  have hb := congrArg (fun k : Func => k.buffer? b) h
  simp only [buffer?_clearShapes, hx, Option.map_some] at hb
  obtain ⟨x', hx', he⟩ := Option.map_eq_some_iff.mp hb
  refine ⟨x', x.required, hx', ?_⟩
  cases x
  cases x'
  simp only [Buffer.mk.injEq, and_true] at he ⊢
  obtain ⟨h1, h2, h3⟩ := he
  simp [h1, h2, h3]

theorem SameStructure.isSome_region? (id : RegionId) :
    (f.region? id).isSome = (g.region? id).isSome := by
  have hid := congrArg (fun k : Func => (k.region? id).isSome) h
  simpa [region?_clearShapes] using hid

theorem SameStructure.regionIds_eq : f.regionIds = g.regionIds := by
  have hlen : f.regions.length = g.regions.length := by
    have := congrArg (fun k : Func => k.regions.length) h
    simpa [clearShapes] using this
  rw [Func.regionIds_eq, Func.regionIds_eq, hlen]
  apply List.filter_congr
  intro id _
  rw [h.isSome_region? id]

end SameStructure

theorem mapIdx_placeText_map {β : Type} {f : β → String} {g : β → β} (h : ∀ x, f (g x) = f x)
    (xs : List (Option β)) : (xs.map (Option.map g)).mapIdx (placeText f) = xs.mapIdx (placeText f) := by
  apply List.ext_getElem?
  intro i
  rw [List.getElem?_mapIdx, List.getElem?_mapIdx, List.getElem?_map, Option.map_map]
  congr 1
  funext x
  cases x with
  | none => rfl
  | some x => simp [placeText, h]

theorem structureText_clearShapes (f : Func) : f.clearShapes.structureText = f.structureText := by
  have hbuffers :
      f.clearShapes.buffers.map Buffer.structureText = f.buffers.map Buffer.structureText := by
    rw [clearShapes, List.map_map]
    rfl
  have htemps : f.clearShapes.temps.mapIdx (placeText Temporary.structureText) =
      f.temps.mapIdx (placeText Temporary.structureText) := by
    apply mapIdx_placeText_map
    intro x
    rfl
  have hregions : f.clearShapes.regions.mapIdx (placeText Region.structureText) =
      f.regions.mapIdx (placeText Region.structureText) := by
    apply mapIdx_placeText_map
    intro x
    rfl
  rw [structureText, hbuffers, htemps, hregions]
  rfl

theorem SameStructure.fingerprint_eq {f g : Func} (h : f.SameStructure g) :
    f.fingerprint = g.fingerprint := by
  rw [fingerprint, fingerprint, ← structureText_clearShapes f, ← structureText_clearShapes g,
    show f.clearShapes = g.clearShapes from h]

theorem fresh_iff {f : Func} : f.fresh = true ↔ f.stamp = some f.fingerprint.words := by
  unfold fresh
  cases f.stamp <;> simp

theorem fresh_recordStamp (f : Func) : f.recordStamp.fresh = true := fresh_iff.mpr rfl

end Func

theorem Sha256.State.words_injective {s t : State} (h : s.words = t.words) : s = t := by
  cases s
  cases t
  simpa [words] using h

end Stencil
