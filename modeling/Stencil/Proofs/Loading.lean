import Stencil.Proofs.Rebuilding
import Stencil.Proofs.Spelling

/-! What a program that was read from a source is like: its functions have no empty places, all
that they name is there, and with finite constants they can be written again. -/

set_option autoImplicit false

namespace Stencil

open Lexer Reported

theorem forall₂_getElem?_right {α β : Type} {R : α → β → Prop} {xs : List α} {ys : List β}
    (h : List.Forall₂ R xs ys) {i : Nat} {y : β} (hy : ys[i]? = some y) :
    ∃ x, xs[i]? = some x ∧ R x y := by
  induction h generalizing i with
  | nil => cases hy
  | @cons x _ _ _ hr _ ih =>
    cases i with
    | zero =>
      cases hy
      exact ⟨x, rfl, hr⟩
    | succ i => exact ih hy

theorem forall₂_mem_right {α β : Type} {R : α → β → Prop} {xs : List α} {ys : List β}
    (h : List.Forall₂ R xs ys)
    {y : β} (hy : y ∈ ys) : ∃ x ∈ xs, R x y := by
  obtain ⟨i, hi⟩ := List.mem_iff_getElem?.mp hy
  obtain ⟨x, hx, hr⟩ := forall₂_getElem?_right h hi
  exact ⟨x, List.mem_of_getElem? hx, hr⟩

theorem places_of_nodup_map {α : Type} {l : List α} {g : α → String} (h : (l.map g).Nodup) {i j : Nat}
    {x y : α}
    (hx : l[i]? = some x) (hy : l[j]? = some y) (heq : g x = g y) : i = j := by
  have hi : (l.map g)[i]? = some (g x) := by rw [List.getElem?_map, hx]; rfl
  have hj : (l.map g)[j]? = some (g x) := by rw [List.getElem?_map, hy, heq]; rfl
  exact Option.some.inj ((idxOf?_of_nodup h hi).symm.trans (idxOf?_of_nodup h hj))

namespace Box

theorem wellFormed_empty (n : Nat) : (empty n).wellFormed n = true := by
  have hzero : coordInRange 0 = true := by decide
  simp [wellFormed, empty, List.all_replicate, hzero]

theorem wellFormed_iff {b : Box} {n : Nat} :
    b.wellFormed n = true ↔ b.Ranked n ∧ (∀ z ∈ b.lb, coordInRange z = true) ∧
      ∀ z ∈ b.ub, coordInRange z = true := by
  simp only [wellFormed, Bool.and_eq_true, decide_eq_true_eq, List.all_append, List.all_eq_true]
  exact ⟨fun h => ⟨⟨h.1.1, h.1.2⟩, h.2⟩, fun h => ⟨⟨h.1.lb, h.1.ub⟩, h.2⟩⟩

theorem wellFormed_canonical {b : Box} {n : Nat} (h : b.wellFormed n = true) :
    b.canonical.wellFormed n = true := by
  unfold canonical
  split
  · rw [(ranked_of_wellFormed h).rank_eq]
    exact wellFormed_empty n
  · exact h

theorem wellFormed_union {a b : Box} {n : Nat} (ha : a.wellFormed n = true) (hb : b.wellFormed n = true) :
    (a.union b).wellFormed n = true := by
  have hmin : ∀ x y, coordInRange x = true → coordInRange y = true → coordInRange (min x y) = true := by
    intro x y hx hy
    rcases min_choice x y with h | h <;> rw [h] <;> assumption
  have hmax : ∀ x y, coordInRange x = true → coordInRange y = true → coordInRange (max x y) = true := by
    intro x y hx hy
    rcases max_choice x y with h | h <;> rw [h] <;> assumption
  unfold union
  split
  · split
    · rw [(ranked_of_wellFormed ha).rank_eq]
      exact wellFormed_empty n
    · exact hb
  · split
    · exact ha
    · obtain ⟨hra, hla, hua⟩ := wellFormed_iff.mp ha
      obtain ⟨hrb, hlb, hub⟩ := wellFormed_iff.mp hb
      refine wellFormed_iff.mpr ⟨⟨?_, ?_⟩, fun z hz => ?_, fun z hz => ?_⟩
      · rw [List.length_zipWith, hra.lb, hrb.lb, Nat.min_self]
      · rw [List.length_zipWith, hra.ub, hrb.ub, Nat.min_self]
      · obtain ⟨x, hx, y, hy, rfl⟩ := mem_zipWith hz
        exact hmin x y (hla x hx) (hlb y hy)
      · obtain ⟨x, hx, y, hy, rfl⟩ := mem_zipWith hz
        exact hmax x y (hua x hx) (hub y hy)

theorem Declarable.union {a b : Box} {n : Nat} (ha : a.Declarable n) (hb : b.Declarable n) :
    (a.union b).Declarable n :=
  ⟨wellFormed_union ha.wellFormed hb.wellFormed,
    canonical_union (ranked_of_wellFormed ha.wellFormed) (ranked_of_wellFormed hb.wellFormed)⟩

end Box

theorem BoxDecl.Denotes.declarable {rank : Nat} {d : BoxDecl} {b : Box} (h : d.Denotes rank b) :
    b.Declarable rank := by
  unfold BoxDecl.Denotes at h
  cases hr : d.ranges with
  | none =>
    rw [hr] at h
    subst h
    exact ⟨Box.wellFormed_empty rank, Box.canonical_empty rank⟩
  | some ranges =>
    rw [hr] at h
    obtain ⟨_, hwf, rfl⟩ := h
    exact ⟨Box.wellFormed_canonical hwf, Box.canonical_canonical⟩

theorem Shape.DenotedBy.declarable {rank : Nat} {d : Option BoxDecl} {s : Shape}
    (h : s.DenotedBy rank d) :
    s.Declarable rank := by
  obtain ⟨b, hb, rfl⟩ := h
  intro x hx
  cases hb with
  | none => cases hx
  | some hd =>
    cases hx
    exact hd.declarable

theorem Shape.Declarable.join {rank : Nat} {s t : Shape} (hs : s.Declarable rank)
    (ht : t.Declarable rank) :
    (s.join t).Declarable rank := by
  cases s with
  | unknown => exact ht
  | known a =>
    cases t with
    | unknown => exact hs
    | known b =>
      rintro _ ⟨⟩
      exact (hs a rfl).union (ht b rfl)

theorem Shape.declarable_foldl_join {rank : Nat} {xs : List Temporary} {s : Shape}
    (hs : s.Declarable rank)
    (h : ∀ x ∈ xs, x.shape.Declarable rank) :
    (xs.foldl (fun s t => s.join t.shape) s).Declarable rank := by
  induction xs generalizing s with
  | nil => exact hs
  | cons x xs ih =>
    rw [List.forall_mem_cons] at h
    exact ih (hs.join h.1) h.2

theorem OpDecl.Denotes.spec {rank : Nat} {operands defined : List String} {d : OpDecl} {op : Op}
    (h : d.Denotes rank operands defined op) (hd : d.Spelled) :
    op.Fits rank operands.length ∧ op.InRange ∧
      (∀ callee as isPure, op = .call callee as isPure → isIdent callee = true) ∧
      ∀ a ∈ op.args, a < defined.length := by
  have hlt : ∀ {l : List String} {a : String} {i : Nat}, l.idxOf? a = some i → i < l.length :=
    fun h => (List.idxOf?_eq_some_iff.mp h).1
  match d, op, h with
  | .access x off, .access slot o, ⟨hslot, _, hlen, hrange⟩ =>
    exact ⟨⟨hlen, hlt hslot⟩, hrange, fun _ _ _ h => (by cases h), fun _ h => (by cases h)⟩
  | .index dim _ off, .index dim' o, ⟨_, hdim, _, hlen, hrange⟩ =>
    exact ⟨⟨hdim, hlen⟩, hrange, fun _ _ _ h => (by cases h), fun _ h => (by cases h)⟩
  | .constant c, .constant v, _ =>
    exact ⟨trivial, trivial, fun _ _ _ h => (by cases h), fun _ h => (by cases h)⟩
  | .unary g a, .unary g' v, ⟨_, ha⟩ =>
    refine ⟨trivial, trivial, fun _ _ _ h => (by cases h), fun x hx => ?_⟩
    rw [List.mem_singleton.mp hx]
    exact hlt ha
  | .binary g l r, .binary g' u v, ⟨_, hl, hr⟩ =>
    refine ⟨trivial, trivial, fun _ _ _ h => (by cases h), fun x hx => ?_⟩
    rcases List.mem_pair.mp hx with rfl | rfl
    · exact hlt hl
    · exact hlt hr
  | .call callee args isPure, .call name vs isPure', ⟨hname, hargs, _⟩ =>
    refine ⟨trivial, trivial, ?_, fun x hx => ?_⟩
    · rintro _ _ _ ⟨⟩
      rw [← hname]
      exact hd
    · obtain ⟨n, _, hn⟩ := forall₂_mem_right hargs hx
      exact hlt hn

theorem statements_spec {rank : Nat} {subject : Subject} {operands defined all : List String}
    {ss : List StatementDecl} {os : List Op} (hspelled : ∀ s ∈ ss, s.op.Spelled)
    (h : Resolution.statements rank subject operands defined ss = pure (os, all)) :
    all.length = defined.length + os.length ∧ ∀ (i : Nat) op, os[i]? = some op →
      op.Fits rank operands.length ∧ op.InRange ∧
        (∀ callee as isPure, op = .call callee as isPure → isIdent callee = true) ∧
        ∀ a ∈ op.args, a < defined.length + i := by
  induction ss generalizing defined os with
  | nil =>
    cases pure_eq_pure_iff.mp h
    exact ⟨rfl, fun i op hop => by cases hop⟩
  | cons s ss ih =>
    rw [List.forall_mem_cons] at hspelled
    obtain ⟨o, ho, _, os, hos, rfl⟩ := Resolution.statements_cons_eq_pure_iff.mp h
    obtain ⟨hlen, hrest⟩ := ih hspelled.2 hos
    rw [List.length_append, List.length_singleton] at hlen
    refine ⟨by rw [hlen, List.length_cons]; omega, fun i op hop => ?_⟩
    cases i with
    | zero =>
      cases hop
      exact ho.spec hspelled.1
    | succ i =>
      obtain ⟨hfits, hrange, hcall, hargs⟩ := hrest i op hop
      refine ⟨hfits, hrange, hcall, fun a ha => ?_⟩
      have := hargs a ha
      rwa [List.length_append, List.length_singleton, Nat.add_assoc, Nat.add_comm 1 i] at this

theorem body_spec {rank : Nat} {subject : Subject} {operands : List String} {results : Nat} {d : BodyDecl}
    {b : Body}
    (hspelled : d.Spelled) (h : Resolution.body rank subject operands results d = pure b) :
    b.Fits rank operands.length ∧ (∀ op ∈ b.ops, op.InRange) ∧
      (∀ callee as isPure, .call callee as isPure ∈ b.ops → isIdent callee = true) ∧
      b.ret.values.length = results * b.ret.factor ∧
      ∀ u, b.ret.unroll = some u → u.axis < rank ∧ 0 < u.factor ∧
        (u.factor : Int) ≤ Resolution.maxFactor := by
  obtain ⟨defined, hss, hvalues, hunroll, harity⟩ := Resolution.body_eq_pure_iff.mp h
  obtain ⟨hlen, hops⟩ := statements_spec hspelled hss
  rw [List.length_nil, Nat.zero_add] at hlen
  have hmem : ∀ op ∈ b.ops, ∃ i, b.ops[i]? = some op := fun op hop => List.mem_iff_getElem?.mp hop
  refine ⟨⟨fun op hop => ?_, fun i op hop a ha => ?_, fun v hv => ?_⟩, fun op hop => ?_,
    fun callee as isPure hop => ?_, harity, (Resolution.unroll_eq_pure_iff.mp hunroll).2⟩
  · obtain ⟨i, hi⟩ := hmem op hop
    exact (hops i op hi).1
  · have := (hops i op hop).2.2.2 a ha
    rwa [List.length_nil, Nat.zero_add] at this
  · obtain ⟨n, _, hn⟩ := forall₂_mem_right hvalues hv
    rw [← hlen]
    exact (List.idxOf?_eq_some_iff.mp hn).1
  · obtain ⟨i, hi⟩ := hmem op hop
    exact (hops i op hi).2.1
  · obtain ⟨i, hi⟩ := hmem _ hop
    exact (hops i _ hi).2.2.1 callee as isPure rfl

namespace Resolution

def Scope.Has (scope : Scope) : Operand → Prop
  | .temp t => t < scope.temps.length
  | .buffer b => b < scope.buffers.length

theorem Scope.has_of_lookup {scope : Scope} {d : OperandDecl} {o : Operand}
    (h : scope.lookup d = some o) :
    scope.Has o := by
  cases d with
  | temp n =>
    obtain ⟨t, ht, rfl⟩ := Option.map_eq_some_iff.mp h
    exact (List.idxOf?_eq_some_iff.mp ht).1
  | buffer n =>
    obtain ⟨b, hb, rfl⟩ := Option.map_eq_some_iff.mp h
    exact (List.idxOf?_eq_some_iff.mp hb).1

theorem Scope.text_eq_of_lookup {scope : Scope} {d d' : OperandDecl} {o : Operand}
    (h : scope.lookup d = some o)
    (h' : scope.lookup d' = some o) : d.text = d'.text := by
  have hat : ∀ {l : List String} {a a' : String} {i : Nat}, l.idxOf? a = some i → l.idxOf? a' = some i →
      a = a' := by
    intro l a a' i ha ha'
    obtain ⟨_, rfl, _⟩ := List.idxOf?_eq_some_iff.mp ha
    obtain ⟨_, rfl, _⟩ := List.idxOf?_eq_some_iff.mp ha'
    rfl
  cases d with
  | temp n =>
    obtain ⟨t, ht, rfl⟩ := Option.map_eq_some_iff.mp h
    cases d' with
    | temp n' =>
      obtain ⟨t', ht', heq⟩ := Option.map_eq_some_iff.mp h'
      cases heq
      exact congrArg ("%" ++ ·) (hat ht ht')
    | buffer n' =>
      obtain ⟨_, _, heq⟩ := Option.map_eq_some_iff.mp h'
      cases heq
  | buffer n =>
    obtain ⟨b, hb, rfl⟩ := Option.map_eq_some_iff.mp h
    cases d' with
    | temp n' =>
      obtain ⟨_, _, heq⟩ := Option.map_eq_some_iff.mp h'
      cases heq
    | buffer n' =>
      obtain ⟨b', hb', heq⟩ := Option.map_eq_some_iff.mp h'
      cases heq
      exact congrArg ("@" ++ ·) (hat hb hb')

theorem nodup_of_lookup {scope : Scope} {ds : List OperandDecl} {os : List Operand}
    (h : List.Forall₂ (fun d o => scope.lookup d = some o) ds os)
    (hnodup : (ds.map OperandDecl.text).Nodup) :
    os.Nodup := by
  induction h with
  | nil => exact List.nodup_nil
  | @cons d o ds os hd hds ih =>
    rw [List.map_cons, List.nodup_cons] at hnodup
    refine List.nodup_cons.mpr ⟨fun hmem => ?_, ih hnodup.2⟩
    obtain ⟨d', hd', ho⟩ := forall₂_mem_right hds hmem
    exact hnodup.1 (List.mem_map.mpr ⟨d', hd', Scope.text_eq_of_lookup ho hd⟩)

/-- What a region that was looked up is like. -/
structure Placed (scope : Scope) (r : Region) : Prop where
  name : isIdent r.name = true
  results : r.results ≠ []
  fits : r.Fits scope.rank
  inRange : ∀ b ∈ r.bodies, ∀ op ∈ b.ops, op.InRange
  callees : ∀ b ∈ r.bodies, ∀ callee as isPure, .call callee as isPure ∈ b.ops → isIdent callee = true
  factor : ∀ u, r.unroll = some u → (u.factor : Int) ≤ maxFactor
  operands_nodup : r.operands.Nodup
  operands : ∀ o ∈ r.operands, scope.Has o

theorem epilogue_spec {rank : Nat} {subject : Subject} {operands : List String} {results : Nat}
    {main e : Body}
    {d : Option BodyDecl} (hspelled : ∀ b, d = some b → b.Spelled)
    (h : epilogue rank subject operands results main d = pure (some e)) :
    (e.Fits rank operands.length ∧ e.ret.unroll = none ∧ e.ret.values.length = results ∧
        main.ret.unroll.isSome = true) ∧ (∀ op ∈ e.ops, op.InRange) ∧
      ∀ callee as isPure, .call callee as isPure ∈ e.ops → isIdent callee = true := by
  have hrel := epilogue_eq_pure_iff.mp h
  cases d with
  | none => cases hrel
  | some d =>
    obtain ⟨hsome, hbody, hnone⟩ : _ ∧ _ ∧ _ := by
      cases hrel with
      | some h => exact h
    obtain ⟨hfits, hrange, hcallees, harity, _⟩ := body_spec (hspelled d rfl) hbody
    rw [Return.factor, hnone] at harity
    exact ⟨⟨hfits, hnone, harity.trans (Nat.mul_one _), hsome⟩, hrange, hcallees⟩

theorem placed_of_region {scope : Scope} {id : RegionId} {d : RegionDecl} {results : List TempId}
    {s : Shape}
    {r : Region} (hspelled : d.Spelled) (hlen : results.length = d.results.length)
    (h : region scope id d results s = pure r) : Placed scope r := by
  obtain ⟨hname, hresults, _, hops, hbody, hepilogue⟩ := region_eq_pure_iff.mp h
  obtain ⟨hlookup, hnodup, _⟩ := operands_eq_pure_iff.mp hops
  have hslots : (d.operands.map OperandDecl.text).length = r.operands.length := by
    rw [List.length_map, hlookup.length_eq]
  rw [← hlen, ← hresults] at hbody hepilogue
  obtain ⟨hfits, hrange, hcallees, harity, hunroll⟩ := body_spec hspelled.body hbody
  rw [hslots] at hfits
  have hrest : ∀ e, r.epilogue = some e → _ :=
    fun e he => epilogue_spec hspelled.epilogue (he ▸ hepilogue)
  rw [hslots] at hrest
  have hbodies : ∀ b ∈ r.bodies, b = r.body ∨ r.epilogue = some b := by
    intro b hb
    rwa [Region.bodies, List.mem_cons, Option.mem_toList] at hb
  refine ⟨by rw [hname]; exact hspelled.name, ?_, ⟨hfits, fun e he => (hrest e he).1, fun u hu => ?_,
    harity⟩, fun b hb => ?_, fun b hb => ?_, fun u hu =>
    (hunroll u hu).2.2, nodup_of_lookup hlookup hnodup, fun o ho => ?_⟩
  · intro hnil
    rw [← hresults, hnil] at hlen
    exact hspelled.results.1 (List.eq_nil_of_length_eq_zero hlen.symm)
  · exact ⟨(hunroll u hu).1, (hunroll u hu).2.1⟩
  · rcases hbodies b hb with rfl | he
    · exact hrange
    · exact (hrest b he).2.1
  · rcases hbodies b hb with rfl | he
    · exact hcallees
    · exact (hrest b he).2.2
  · obtain ⟨x, _, hx⟩ := forall₂_mem_right hlookup ho
    exact Scope.has_of_lookup hx

theorem resolveRegions_spec {d : Declared} {scope : Scope} {id : RegionId}
    {ps : List (RegionDecl × List TempId)}
    {rs : List Region} (hps : ∀ p ∈ ps, p.1.Spelled ∧ p.2.length = p.1.results.length)
    (h : d.resolveRegions scope id ps = pure rs) :
    List.Forall₂ (fun p r => Placed scope r ∧ r.name = p.1.name.text ∧ r.results = p.2 ∧
      (r.shape = d.joinedShape p.2 ∨ ∃ b, r.shape = .known b ∧ b.Declarable scope.rank)) ps rs := by
  induction ps generalizing id rs with
  | nil =>
    cases pure_eq_pure_iff.mp h
    exact .nil
  | cons p ps ih =>
    rw [List.forall_mem_cons] at hps
    obtain ⟨x, xs, hshape, hx, hxs, rfl⟩ := Declared.resolveRegions_cons_eq_pure_iff.mp h
    obtain ⟨hname, hresults, _⟩ := region_eq_pure_iff.mp hx
    refine .cons ⟨placed_of_region hps.1.1 hps.1.2 hx, hname, hresults, ?_⟩ (ih hps.2 hxs)
    cases hd : p.1.domain with
    | none =>
      rw [hd] at hshape
      exact .inl hshape
    | some b =>
      rw [hd] at hshape
      obtain ⟨c, hc, hk⟩ := hshape
      cases hc with
      | some hbox => exact .inr ⟨_, hk.symm, hbox.declarable⟩

theorem outputs_spec {scope : Scope} {is : List ItemDecl} {os : List OutputMark}
    (h : outputs scope is = pure os) :
    ∀ o ∈ os, o.temp < scope.temps.length ∧ o.domain.Declarable scope.rank := by
  induction is generalizing os with
  | nil =>
    cases pure_eq_pure_iff.mp h
    exact fun o ho => by cases ho
  | cons i is ih =>
    cases i with
    | buffer b => exact ih h
    | region r => exact ih h
    | output d =>
      obtain ⟨t, b, os, ht, hb, hos, rfl⟩ := outputs_cons_eq_pure_iff.mp h
      exact List.forall_mem_cons.mpr ⟨⟨(List.idxOf?_eq_some_iff.mp ht).1, hb.declarable⟩, ih hos⟩

end Resolution

namespace Resolution.Declared

/-- What holds of the items read so far. -/
structure Valid (rank : Nat) (d : Declared) : Prop where
  buffer : ∀ b ∈ d.buffers, isGlobalName b.name = true ∧ (∀ x, b.domain = some x → x.Declarable rank) ∧
    b.required.Declarable rank
  buffers_nodup : (d.buffers.map (·.name)).Nodup
  temp : ∀ x ∈ d.temps, isLocalName x.name = true ∧ x.shape.Declarable rank
  temps_nodup : (d.temps.map (·.name)).Nodup
  region : ∀ p ∈ d.regions, p.1.Spelled ∧ p.2.length = p.1.results.length
  regions_nodup : (d.regions.map (·.1.name.text)).Nodup
  numbered : d.regions.flatMap (·.2) = List.range d.temps.length
  owned : ∀ (id : RegionId) p (i : Nat) t, d.regions[id]? = some p → p.2[i]? = some t →
    ∃ x, d.temps[t]? = some x ∧ x.producer = id ∧ x.resultIndex = i

variable {rank : Nat} {d d' : Declared}

theorem valid_empty (rank : Nat) : Valid rank .empty where
  buffer _ h := by cases h
  buffers_nodup := List.nodup_nil
  temp _ h := by cases h
  temps_nodup := List.nodup_nil
  region _ h := by cases h
  regions_nodup := List.nodup_nil
  numbered := rfl
  owned _ _ _ _ h := by cases h

theorem Valid.addBuffer {b : BufferDecl} (h : Valid rank d) (hb : isGlobalName b.name.text = true)
    (hadd : addBuffer rank d b = pure d') : Valid rank d' := by
  obtain ⟨x, hx, hfresh, rfl⟩ := addBuffer_eq_pure_iff.mp hadd
  refine { h with buffer := ?_, buffers_nodup := ?_ }
  · intro y hy
    rcases List.mem_append.mp hy with hy | hy
    · exact h.buffer y hy
    · rw [List.mem_singleton.mp hy]
      refine ⟨by rw [hx.name]; exact hb, fun z hz => ?_, hx.required.declarable⟩
      have hdomain := hx.domain
      rw [hz] at hdomain
      generalize b.domain = declared at hdomain
      cases hdomain with
      | some hd => exact hd.declarable
  · rw [List.map_append, List.map_singleton, ← List.concat_eq_append]
    exact h.buffers_nodup.concat hfresh

theorem Valid.addRegion {r : RegionDecl} (h : Valid rank d) (hr : r.Spelled)
    (hadd : addRegion rank d r = pure d') :
    Valid rank d' := by
  obtain ⟨hfresh, xs, hxs, rfl⟩ := (addRegion_eq_pure_iff h.temps_nodup).mp hadd
  have hlen : xs.length = r.results.length := by
    have := congrArg List.length hxs.names
    rwa [List.length_map, List.length_map] at this
  refine ⟨h.buffer, h.buffers_nodup, ?_, hxs.distinct, ?_, ?_, ?_, ?_⟩
  · intro x hx
    rcases List.mem_append.mp hx with hx | hx
    · exact h.temp x hx
    · refine ⟨?_, ?_⟩
      · have hname : x.name ∈ r.results.map (·.text) := hxs.names ▸ List.mem_map_of_mem hx
        obtain ⟨n, hn, heq⟩ := List.mem_map.mp hname
        rw [← heq]
        exact hr.results.2 n hn
      · obtain ⟨t, _, ht⟩ := forall₂_mem_right hxs.types hx
        exact ht.shape.declarable
  · intro p hp
    rcases List.mem_append.mp hp with hp | hp
    · exact h.region p hp
    · rw [List.mem_singleton.mp hp]
      exact ⟨hr, by rw [List.length_range', hlen]⟩
  · rw [List.map_append, List.map_singleton, ← List.concat_eq_append]
    exact h.regions_nodup.concat hfresh
  · rw [List.flatMap_append, h.numbered, List.length_append, List.range_eq_range', List.range_eq_range',
      List.flatMap_singleton]
    have := List.range'_append_1 (s := 0) (m := d.temps.length) (n := xs.length)
    rwa [Nat.zero_add] at this
  · intro id p i t hp ht
    by_cases hid : id < d.regions.length
    · -- temporaries are only added behind those of the regions so far
      rw [List.getElem?_append_left hid] at hp
      obtain ⟨x, hx, hplace⟩ := h.owned id p i t hp ht
      refine ⟨x, ?_, hplace⟩
      rw [List.getElem?_append_left (List.getElem?_eq_some_iff.mp hx).1]
      exact hx
    · rw [List.getElem?_append_right (Nat.le_of_not_lt hid)] at hp
      have hzero : id - d.regions.length = 0 := Nat.lt_one_iff.mp (List.getElem?_eq_some_iff.mp hp).1
      have hid : id = d.regions.length :=
        Nat.le_antisymm (Nat.sub_eq_zero_iff_le.mp hzero) (Nat.le_of_not_lt hid)
      rw [hzero] at hp
      cases hp
      have hi : i < xs.length := by simpa using (List.getElem?_eq_some_iff.mp ht).1
      rw [List.getElem?_range' hi, Nat.one_mul] at ht
      cases ht
      have hx := List.getElem?_eq_getElem hi
      obtain ⟨hproducer, hindex⟩ := hxs.places i _ hx
      refine ⟨_, ?_, hid ▸ hproducer, hindex.trans (Nat.zero_add i)⟩
      rw [List.getElem?_append_right (Nat.le_add_right _ i), Nat.add_sub_cancel_left]
      exact hx

theorem Valid.addItems {is : List ItemDecl} (h : Valid rank d) (his : ∀ i ∈ is, i.Spelled)
    (hadd : addItems rank d is = pure d') : Valid rank d' := by
  induction is generalizing d with
  | nil =>
    cases pure_eq_pure_iff.mp hadd
    exact h
  | cons i is ih =>
    rw [List.forall_mem_cons] at his
    cases i with
    | buffer b =>
      obtain ⟨e, he, hrest⟩ := bind_eq_pure_iff.mp hadd
      exact ih (h.addBuffer his.1 he) his.2 hrest
    | region r =>
      obtain ⟨e, he, hrest⟩ := bind_eq_pure_iff.mp hadd
      exact ih (h.addRegion his.1 he) his.2 hrest
    | output o => exact ih h his.2 hadd

end Resolution.Declared

def Op.isFinite : Op → Bool
  | .constant c => c.isFinite
  | _ => true

namespace Func

def ConstantsFinite (f : Func) : Prop :=
  ∀ id r b c, f.region? id = some r → b ∈ r.bodies → .constant c ∈ b.ops → c.isFinite = true

theorem constantsFinite_iff {f : Func} :
    f.ConstantsFinite ↔ ∀ p ∈ f.liveRegions, ∀ b ∈ p.2.bodies, ∀ op ∈ b.ops, op.isFinite = true := by
  constructor
  · intro h p hp b hb op hop
    cases op with
    | constant c => exact h p.1 p.2 b c (mem_liveRegions.mp hp) hb hop
    | _ => rfl
  · intro h id r b c hr hb hop
    exact h (id, r) (mem_liveRegions.mpr hr) b hb (.constant c) hop

instance : DecidablePred ConstantsFinite := fun _ => decidable_of_iff _ constantsFinite_iff.symm

/-- A function that was read: what was declared, and the regions that were looked up. -/
structure Built (f : Func) (d : FuncDecl) (declared : Resolution.Declared) (rs : List Region) : Prop where
  spelled : d.Spelled
  rank_pos : 0 < f.rank
  rank_eq : d.rank = f.rank
  name : f.name = d.name.text
  valid : declared.Valid f.rank
  buffers : f.buffers = declared.buffers
  dense : f.Dense rs declared.temps
  regions :
  List.Forall₂ (fun p r => Resolution.Placed (declared.scope f.rank) r ∧ r.name = p.1.name.text ∧
    r.results = p.2 ∧
      (r.shape = declared.joinedShape p.2 ∨ ∃ b, r.shape = .known b ∧ b.Declarable f.rank))
    declared.regions rs
  outputs : ∀ o ∈ f.outputs, o.temp < declared.temps.length ∧ o.domain.Declarable f.rank

variable {f : Func} {d : FuncDecl} {declared : Resolution.Declared} {rs : List Region}

theorem built_of_function (hd : d.Spelled) (h : Resolution.function d = pure (some f)) :
    ∃ declared rs, f.Built d declared rs := by
  obtain ⟨hpos, hrank, hname, hstamp, declared, rs, hadd, hbuffers, htemps, hregions, hresolve, houts⟩ :=
    Resolution.function_eq_pure_iff.mp h
  have hvalid := (Resolution.Declared.valid_empty f.rank).addItems hd.items hadd
  have hplaced := Resolution.resolveRegions_spec hvalid.region hresolve
  have hresults : rs.map (·.results) = declared.regions.map (·.2) := by
    rw [← List.forall₂_eq_eq_eq, List.forall₂_map_left_iff, List.forall₂_map_right_iff]
    exact hplaced.flip.imp fun _ _ hr => hr.2.2.1
  have hnumbered : rs.flatMap (·.results) = List.range declared.temps.length := by
    rw [← hvalid.numbered, List.flatMap_def, List.flatMap_def, hresults]
  have houts := Resolution.outputs_spec houts
  rw [Resolution.Declared.scope, List.length_map] at houts
  exact ⟨declared, rs, hd, hpos, hrank, hname, hvalid, hbuffers, ⟨hregions, htemps, hnumbered, hstamp⟩,
    hplaced, houts⟩

namespace Built

variable (h : f.Built d declared rs)
include h

theorem exists_declared {id : RegionId} {r : Region} (hr : f.region? id = some r) :
    ∃ p, declared.regions[id]? = some p ∧ Resolution.Placed (declared.scope f.rank) r ∧
      r.name = p.1.name.text ∧
      r.results = p.2 ∧
        (r.shape = declared.joinedShape p.2 ∨ ∃ b, r.shape = .known b ∧ b.Declarable f.rank) := by
  rw [h.dense.region?_eq] at hr
  exact forall₂_getElem?_right h.regions hr

theorem placed {id : RegionId} {r : Region} (hr : f.region? id = some r) :
    Resolution.Placed (declared.scope f.rank) r := by
  obtain ⟨_, _, hplaced, _⟩ := h.exists_declared hr
  exact hplaced

theorem mem_temps {t : TempId} {x : Temporary} (hx : f.temp? t = some x) : x ∈ declared.temps := by
  rw [h.dense.temp?_eq] at hx
  exact List.mem_of_getElem? hx

theorem operandLive {o : Operand} (ho : (declared.scope f.rank).Has o) : f.operandLive o = true := by
  cases o with
  | temp t =>
    have ht : t < declared.temps.length := by
      simpa [Resolution.Scope.Has, Resolution.Declared.scope] using ho
    rw [Func.operandLive, h.dense.temp?_eq, List.getElem?_eq_getElem ht]
    rfl
  | buffer b =>
    have hb : b < f.buffers.length := by
      rw [h.buffers]
      simpa [Resolution.Scope.Has, Resolution.Declared.scope] using ho
    rw [Func.operandLive, buffer?, List.getElem?_eq_getElem hb]
    rfl

theorem owned {id : RegionId} {r : Region} {i : Nat} {t : TempId} (hr : f.region? id = some r)
    (ht : r.results[i]? = some t) : ∃ x, f.temp? t = some x ∧ x.producer = id ∧ x.resultIndex = i := by
  obtain ⟨p, hp, _, _, hresults, _⟩ := h.exists_declared hr
  rw [hresults] at ht
  obtain ⟨x, hx, hplace⟩ := h.valid.owned id p i t hp ht
  exact ⟨x, by rw [h.dense.temp?_eq, hx], hplace⟩

theorem produced {t : TempId} {x : Temporary} (hx : f.temp? t = some x) :
    ∃ r, f.region? x.producer = some r ∧ r.results[x.resultIndex]? = some t := by
  have ht : t < declared.temps.length := by
    rw [h.dense.temp?_eq] at hx
    exact (List.getElem?_eq_some_iff.mp hx).1
  have hmem : t ∈ rs.flatMap (·.results) := by
    rw [h.dense.numbered]
    exact List.mem_range.mpr ht
  obtain ⟨r, hr, hmem⟩ := List.mem_flatMap.mp hmem
  obtain ⟨id, hid⟩ := List.mem_iff_getElem?.mp hr
  obtain ⟨i, hi⟩ := List.mem_iff_getElem?.mp hmem
  rw [← h.dense.region?_eq] at hid
  obtain ⟨y, hy, rfl, rfl⟩ := h.owned hid hi
  cases hx.symm.trans hy
  exact ⟨r, hid, hi⟩

theorem sound : f.Sound where
  fits id r hr := (h.placed hr).fits
  owned id r i t hr ht := h.owned hr ht
  produced t x hx := h.produced hx
  outputs o ho := by
    obtain ⟨ht, hbox⟩ := h.outputs o ho
    exact ⟨⟨_, by rw [h.dense.temp?_eq, List.getElem?_eq_getElem ht]⟩,
      Box.ranked_of_wellFormed hbox.wellFormed⟩
  reads id r b s o hr hb hop := by
    have hs : s < r.operands.length := (((h.placed hr).fits.mem_bodies hb).ops _ hop).2
    exact ⟨_, List.getElem?_eq_getElem hs, h.operandLive ((h.placed hr).operands _ (List.getElem_mem hs))⟩

theorem joinedShape_eq (r : Region) : declared.joinedShape r.results = f.resultShape r := by
  rw [Resolution.Declared.joinedShape, resultShape, funext h.dense.temp?_eq]

theorem resultShape_declarable (r : Region) : (f.resultShape r).Declarable f.rank := by
  refine Shape.declarable_foldl_join (fun b hb => by cases hb) fun x hx => ?_
  obtain ⟨t, _, ht⟩ := List.mem_filterMap.mp hx
  exact (h.valid.temp x (h.mem_temps ht)).2

theorem shape_cases {id : RegionId} {r : Region} (hr : f.region? id = some r) :
    r.shape = f.resultShape r ∨ ∃ b, r.shape = .known b ∧ b.Declarable f.rank := by
  obtain ⟨p, _, _, _, hresults, hshape⟩ := h.exists_declared hr
  rwa [← hresults, h.joinedShape_eq] at hshape

theorem boxed : f.Boxed where
  domain b hb := (h.valid.buffer b (h.buffers ▸ hb)).2.1
  required b hb := (h.valid.buffer b (h.buffers ▸ hb)).2.2
  temp t x hx := (h.valid.temp x (h.mem_temps hx)).2
  region id r hr := by
    rcases h.shape_cases hr with heq | ⟨b, hb, hbox⟩
    · rw [heq]
      exact h.resultShape_declarable r
    · rintro c hc
      cases hb.symm.trans hc
      exact hbox
  output o ho := (h.outputs o ho).2
  given id r hr hnone := by
    rcases h.shape_cases hr with heq | ⟨b, hb, _⟩
    · rw [← heq, hnone]
    · cases hb.symm.trans hnone

theorem region_legible (hfinite : f.ConstantsFinite) {id : RegionId} {r : Region}
    (hr : f.region? id = some r) :
    r.Legible where
  name := (h.placed hr).name
  ops b hb op hop := by
    cases op with
    | constant c => exact hfinite id r b c hr hb hop
    | call callee as isPure => exact (h.placed hr).callees b hb callee as isPure hop
    | _ => trivial
  factor := (h.placed hr).factor
  operands := (h.placed hr).operands_nodup
  results := (h.placed hr).results

theorem legible (hfinite : f.ConstantsFinite) : f.Legible where
  name := by rw [h.name]; exact h.spelled.name
  rank_pos := h.rank_pos
  rank_le := by rw [← h.rank_eq]; exact h.spelled.rank
  buffer b hb := (h.valid.buffer b (h.buffers ▸ hb)).1
  temp t x hx := (h.valid.temp x (h.mem_temps hx)).1
  region id r hr := h.region_legible hfinite hr
  buffers_nodup := by rw [h.buffers]; exact h.valid.buffers_nodup
  temps_inj t u x y hx hy heq := by
    rw [h.dense.temp?_eq] at hx hy
    exact places_of_nodup_map h.valid.temps_nodup hx hy heq
  regions_inj id id' r r' hr hr' heq := by
    obtain ⟨p, hp, _, hname, _⟩ := h.exists_declared hr
    obtain ⟨p', hp', _, hname', _⟩ := h.exists_declared hr'
    exact places_of_nodup_map h.valid.regions_nodup hp hp' (hname.symm.trans (heq.trans hname'))

theorem printable (hfinite : f.ConstantsFinite) : f.Printable where
  legible := h.legible hfinite
  sound := h.sound
  closed _ _ o hr ho := h.operandLive ((h.placed hr).operands o ho)
  inRange _ _ b op hr hb hop := (h.placed hr).inRange b hb op hop
  boxed := h.boxed

end Built

end Func

namespace Resolution

/-- A function is kept if nothing was reported. -/
def kept (r : Reported (Option Func)) : List Func := if r.diagnostics.isEmpty then r.value.toList else []

theorem mem_kept_iff {r : Reported (Option Func)} {f : Func} : f ∈ kept r ↔ r = pure (some f) := by
  obtain ⟨value, diagnostics⟩ := r
  unfold kept
  constructor
  · intro h
    split at h
    · rename_i hempty
      cases List.isEmpty_iff.mp hempty
      cases Option.mem_toList.mp h
      rfl
    · cases h
  · intro h
    cases congrArg Reported.value h
    cases congrArg Reported.diagnostics h
    exact List.mem_singleton_self f

theorem nodup_names_kept (r : Reported (Option Func)) : ((kept r).map (·.name)).Nodup := by
  unfold kept
  split
  · cases r.value with
    | none => exact List.nodup_nil
    | some f => exact List.nodup_singleton _
  · exact List.nodup_nil

theorem functions_cons_value (seen : List Name) (d : FuncDecl) (ds : List FuncDecl) :
    (functions seen (d :: ds)).value =
      (if d.name.text ∈ seen.map (·.text) then [] else kept (function d)) ++
        (functions (d.name :: seen) ds).value := by
  cases hfind : seen.find? (·.text = d.name.text) with
  | some earlier =>
    have htaken : d.name.text ∈ seen.map (·.text) :=
      List.mem_map.mpr ⟨earlier, List.mem_of_find?_eq_some hfind, by simpa using List.find?_some hfind⟩
    rw [if_pos htaken]
    simp only [functions, hfind]
    rfl
  | none =>
    have hnew : d.name.text ∉ seen.map (·.text) := by
      intro hmem
      obtain ⟨n, hn, heq⟩ := List.mem_map.mp hmem
      exact List.find?_eq_none.mp hfind n hn (decide_eq_true heq)
    rw [if_neg hnew]
    simp only [functions, hfind]
    rfl

/-- Functions are kept one by one: a declaration without a fault gives its function, unless an earlier
one, faulty or not, has its name. -/
theorem mem_functions_iff {seen : List Name} {ds : List FuncDecl} {f : Func} :
    f ∈ (functions seen ds).value ↔ ∃ before d after, ds = before ++ d :: after ∧
      d.name.text ∉ seen.map (·.text) ∧ d.name.text ∉ before.map (·.name.text) ∧
      function d = pure (some f) := by
  induction ds generalizing seen with
  | nil =>
    constructor
    · intro h
      cases h
    · rintro ⟨before, d, after, heq, _⟩
      cases before <;> cases heq
  | cons d ds ih =>
    rw [functions_cons_value, List.mem_append, ih]
    constructor
    · rintro (h | ⟨before, e, after, rfl, hseen, hbefore, hfun⟩)
      · split at h
        · cases h
        · rename_i hnew
          exact ⟨[], d, ds, rfl, hnew, List.not_mem_nil, mem_kept_iff.mp h⟩
      · rw [List.map_cons, List.mem_cons, not_or] at hseen
        refine ⟨d :: before, e, after, rfl, hseen.2, ?_, hfun⟩
        rw [List.map_cons, List.mem_cons, not_or]
        exact ⟨hseen.1, hbefore⟩
    · rintro ⟨before, e, after, heq, hseen, hbefore, hfun⟩
      cases before with
      | nil =>
        cases heq
        rw [if_neg hseen]
        exact .inl (mem_kept_iff.mpr hfun)
      | cons b before =>
        cases heq
        rw [List.map_cons, List.mem_cons, not_or] at hbefore
        refine .inr ⟨before, e, after, rfl, ?_, hbefore.2, hfun⟩
        rw [List.map_cons, List.mem_cons, not_or]
        exact ⟨hbefore.1, hseen⟩

theorem function_name {d : FuncDecl} {f : Func} (h : function d = pure (some f)) : f.name = d.name.text :=
  (function_eq_pure_iff.mp h).2.2.1

theorem nodup_names_functions (seen : List Name) (ds : List FuncDecl) :
    ((functions seen ds).value.map (·.name)).Nodup := by
  induction ds generalizing seen with
  | nil => exact List.nodup_nil
  | cons d ds ih =>
    rw [functions_cons_value, List.map_append]
    refine List.nodup_append.mpr ⟨?_, ih (d.name :: seen), fun a ha b hb => ?_⟩
    · split
      · exact List.nodup_nil
      · exact nodup_names_kept _
    · obtain ⟨f, hf, rfl⟩ := List.mem_map.mp ha
      obtain ⟨g, hg, rfl⟩ := List.mem_map.mp hb
      obtain ⟨_, e, _, _, hseen, _, hfun⟩ := mem_functions_iff.mp hg
      split at hf
      · cases hf
      · rw [function_name (mem_kept_iff.mp hf), function_name hfun]
        intro heq
        exact hseen (List.mem_cons.mpr (.inl heq.symm))

end Resolution

namespace Program

theorem load_eq_ok {s : String} {p : Program} (h : load s = .ok p) :
    ∃ d, (Parsed.ofSource s).program = some d ∧ p = (ofDecl d).value := by
  simp only [load] at h
  split at h
  · cases h
  · rename_i d hd
    split at h
    · cases h
    · cases h
      exact ⟨d, hd, rfl⟩

theorem ofDecl_functions (d : ProgramDecl) :
    (ofDecl d).value.functions = (Resolution.functions [] d.functions).value := rfl

theorem built_of_mem {s : String} {d : ProgramDecl} (hd : (Parsed.ofSource s).program = some d) {f : Func}
    (hf : f ∈ (ofDecl d).value.functions) : ∃ e declared rs, f.Built e declared rs := by
  obtain ⟨before, e, after, heq, _, _, hfun⟩ := Resolution.mem_functions_iff.mp hf
  exact ⟨e, Func.built_of_function (Parsed.spelled_of_ofSource hd e (by simp [heq])) hfun⟩

theorem built_of_load {s : String} {p : Program} (h : load s = .ok p) :
    (∀ f ∈ p.functions, ∃ d declared rs, f.Built d declared rs) ∧ (p.functions.map (·.name)).Nodup := by
  obtain ⟨d, hd, rfl⟩ := load_eq_ok h
  exact ⟨fun f hf => built_of_mem hd hf, Resolution.nodup_names_functions [] d.functions⟩

/-- A program that was read, with finite constants, is read back from its own text, with every name,
box and number in its place. -/
theorem load_text_of_load {s : String} {p : Program} (h : load s = .ok p)
    (hfinite : ∀ f ∈ p.functions, f.ConstantsFinite) : load p.text = .ok p := by
  obtain ⟨hbuilt, hnodup⟩ := built_of_load h
  refine load_text (fun f hf => ?_) hnodup
  obtain ⟨d, declared, rs, hf'⟩ := hbuilt f hf
  exact ⟨hf'.printable (hfinite f hf), rs, declared.temps, hf'.dense⟩

/-- The output comes first, a region stands before the one it reads, and a box of its own is kept. -/
def blurSource : String :=
  "func f rank 1 \x7b output %q [0:4] %q = apply r(%p) -> f64 over [-1:4]\x7b%w = access %p [-1]
  return %w, %w unroll 0 by 2\x7d%p = apply p() -> f32 empty\x7b%c = const 5e-1 return %c\x7d\x7d"

def blur : Func where
  name := "f"
  rank := 1
  buffers := []
  temps := [some ⟨"q", .f64, 0, 0, .unknown⟩, some ⟨"p", .f32, 1, 0, .known ⟨[0], [0]⟩⟩]
  regions := [
    some ⟨"r", [.temp 1], ⟨[.access 0 [-1]], [0, 0], some ⟨0, 2⟩⟩, none, [0], .known ⟨[-1], [4]⟩⟩,
    some ⟨"p", [], ⟨[.constant ⟨0x3FE0000000000000⟩], [0], none⟩, none, [1], .known ⟨[0], [0]⟩⟩]
  outputs := [⟨0, ⟨[0], [4]⟩⟩]
  stamp := none

theorem load_text_of_load_blur :
    (load blurSource = .ok ⟨[blur]⟩ ∧ ∀ f ∈ [blur], f.ConstantsFinite) ∧
      load (Program.text ⟨[blur]⟩) = .ok ⟨[blur]⟩ := by
  have hload : load blurSource = .ok ⟨[blur]⟩ := by decide +kernel
  have hfinite : ∀ f ∈ [blur], f.ConstantsFinite := by decide
  exact ⟨⟨hload, hfinite⟩, load_text_of_load hload hfinite⟩

end Program

end Stencil
