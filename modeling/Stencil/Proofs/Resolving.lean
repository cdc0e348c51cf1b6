import Mathlib.Data.List.Forall2
import Stencil.Resolution
import Stencil.Proofs.Printing

/-! When names are looked up without a fault. For every step of the resolution it is said what its
declarations must be like for nothing to be reported, and what they then stand for. -/

set_option autoImplicit false

namespace Stencil

namespace Reported

variable {α β : Type}

@[simp] theorem pure_eq_pure_iff {a b : α} : (pure a : Reported α) = pure b ↔ a = b :=
  ⟨fun h => congrArg Reported.value h, fun h => h ▸ rfl⟩

/-- Nothing is reported by two steps just when neither reports anything. -/
@[simp] theorem bind_eq_pure_iff {x : Reported α} {g : α → Reported β} {v : β} :
    x >>= g = pure v ↔ ∃ a, x = pure a ∧ g a = pure v := by
  constructor
  · intro h
    have hdiag : x.diagnostics ++ (g x.value).diagnostics = [] := congrArg Reported.diagnostics h
    obtain ⟨hx, hg⟩ := List.append_eq_nil_iff.mp hdiag
    have hvalue : (g x.value).value = v := congrArg Reported.value h
    refine ⟨x.value, ?_, ?_⟩
    · cases x
      cases hx
      rfl
    · cases hgx : g x.value
      rw [hgx] at hg hvalue
      cases hg
      cases hvalue
      rfl
  · rintro ⟨a, rfl, hg⟩
    exact hg

theorem report_ne_pure {c : Code} {s : Span} {m : String} {u : Unit} : report c s m ≠ pure u := by
  intro h
  cases congrArg Reported.diagnostics h

theorem reportHint_ne_pure {c : Code} {s : Span} {m n : String} {u : Unit} :
    reportHint c s m n ≠ pure u := by
  intro h
  cases congrArg Reported.diagnostics h

@[simp] theorem reportIf_eq_pure_iff {b : Bool} {c : Code} {s : Span} {m : String} {u : Unit} :
    reportIf b c s m = pure u ↔ b = false := by
  cases b with
  | false => exact ⟨fun _ => rfl, fun _ => rfl⟩
  | true => exact ⟨fun h => absurd h report_ne_pure, fun h => by cases h⟩

@[simp] theorem each_eq_pure_iff {g : α → Reported β} {xs : List α} {ys : List β} :
    each g xs = pure ys ↔ List.Forall₂ (fun x y => g x = pure y) xs ys := by
  induction xs generalizing ys with
  | nil => simp [each, eq_comm]
  | cons x xs ih => cases ys <;> simp [each, ih]

end Reported

open Reported

/-- The box that a declaration stands for: any empty one is the canonical one. -/
def BoxDecl.Denotes (rank : Nat) (d : BoxDecl) (b : Box) : Prop :=
  match d.ranges with
  | none => b = Box.empty rank
  | some ranges =>
    ranges.length = rank ∧ (Box.ofRanges ranges).wellFormed rank = true ∧
      b = (Box.ofRanges ranges).canonical

def OffsetDecl.Denotes (rank : Nat) (d : OffsetDecl) (o : Offset) : Prop :=
  d.values = o ∧ o.length = rank ∧ o.inRange = true

/-- The operation that a declaration stands for, among these operands and values. -/
def OpDecl.Denotes (rank : Nat) (operands defined : List String) : OpDecl → Op → Prop
  | .access x off, .access slot o => operands.idxOf? x.text = some slot ∧ off.Denotes rank o
  | .index dim _ off, .index d o => dim = d ∧ d < rank ∧ off.Denotes rank o
  | .constant c, .constant v => c.value = v
  | .unary g a, .unary g' v => g = g' ∧ defined.idxOf? a.text = some v
  | .binary g l r, .binary g' u v =>
    g = g' ∧ defined.idxOf? l.text = some u ∧ defined.idxOf? r.text = some v
  | .call callee args isPure, .call name vs isPure' =>
    callee.text = name ∧ List.Forall₂ (fun (n : Name) v => defined.idxOf? n.text = some v) args vs ∧
      isPure = isPure'
  | _, _ => False

/-- The box that an optional declaration stands for, as a shape. -/
def Shape.DenotedBy (rank : Nat) (s : Shape) (d : Option BoxDecl) : Prop :=
  ∃ b, Option.Rel (BoxDecl.Denotes rank) d b ∧ Shape.ofOption b = s

structure TypeDecl.Denotes (rank : Nat) (d : TypeDecl) (t : Temporary) : Prop where
  elem : ElemType.ofName? d.elem.text = some t.elem
  shape : t.shape.DenotedBy rank d.shape

structure BufferDecl.Denotes (rank : Nat) (d : BufferDecl) (b : Buffer) : Prop where
  name : b.name = d.name.text
  elem : ElemType.ofName? d.elem.text = some b.elem
  domain : Option.Rel (BoxDecl.Denotes rank) d.domain b.domain
  required : b.required.DenotedBy rank d.required

namespace Resolution

theorem elemType_eq_pure_iff {n : Name} {e : ElemType} :
    elemType n = pure e ↔ ElemType.ofName? n.text = some e := by
  unfold elemType
  cases ElemType.ofName? n.text with
  | some x => simp
  | none => simp [reportHint_ne_pure]

theorem offset_eq_pure_iff {rank : Nat} {d : OffsetDecl} {o : Offset} :
    offset rank d = pure o ↔ d.Denotes rank o := by
  by_cases hr : Offset.inRange d.values = true
  · simp only [offset, OffsetDecl.Denotes, bind_eq_pure_iff, reportIf_eq_pure_iff, if_pos hr,
      pure_eq_pure_iff]
    constructor
    · rintro ⟨_, hlen, rfl⟩
      exact ⟨rfl, by simpa using hlen, hr⟩
    · rintro ⟨rfl, hlen, _⟩
      exact ⟨(), by simpa using hlen, rfl⟩
  · simp only [offset, OffsetDecl.Denotes, bind_eq_pure_iff, if_neg hr, reportHint_ne_pure]
    constructor
    · rintro ⟨_, _, _, h, _⟩
      exact h.elim
    · rintro ⟨rfl, _, h⟩
      exact absurd h hr

theorem box_eq_pure_iff {rank : Nat} {d : BoxDecl} {b? : Option Box} :
    box rank d = pure b? ↔ ∃ b, b? = some b ∧ d.Denotes rank b := by
  obtain ⟨ranges, span⟩ := d
  cases ranges with
  | none => simp [box, BoxDecl.Denotes, eq_comm]
  | some ranges =>
    by_cases hlen : ranges.length = rank
    · by_cases hw : (Box.ofRanges ranges).wellFormed rank = true
      · simp [box, BoxDecl.Denotes, hlen, hw, eq_comm]
      · simp [box, BoxDecl.Denotes, hlen, hw, reportHint_ne_pure]
    · simp [box, BoxDecl.Denotes, hlen, report_ne_pure]

theorem optionalBox_eq_pure_iff {rank : Nat} {d : Option BoxDecl} {b : Option Box} :
    optionalBox rank d = pure b ↔ Option.Rel (BoxDecl.Denotes rank) d b := by
  cases d with
  | none => cases b <;> simp [optionalBox]
  | some d => cases b <;> simp [optionalBox, box_eq_pure_iff]

theorem shape_eq_pure_iff {rank : Nat} {d : Option BoxDecl} {s : Shape} :
    shape rank d = pure s ↔ s.DenotedBy rank d := by
  simp [shape, optionalBox_eq_pure_iff, Shape.DenotedBy]

theorem value_eq_pure_iff {defined : List String} {n : Name} {v : ValueId} :
    value defined n = pure v ↔ defined.idxOf? n.text = some v := by
  unfold value
  cases defined.idxOf? n.text with
  | some x => simp
  | none => simp [report_ne_pure]

theorem slot_eq_pure_iff {subject : Subject} {operands : List String} {o : OperandDecl} {s : Nat} :
    slot subject operands o = pure s ↔ operands.idxOf? o.text = some s := by
  unfold slot
  cases operands.idxOf? o.text with
  | some x => simp
  | none => simp [reportHint_ne_pure]

theorem op_eq_pure_iff {rank : Nat} {subject : Subject} {operands defined : List String} {d : OpDecl}
    {o : Op} :
    op rank subject operands defined d = pure o ↔ d.Denotes rank operands defined o := by
  cases d with
  | access x off =>
    cases o <;> simp [op, OpDecl.Denotes, slot_eq_pure_iff, offset_eq_pure_iff]
  | index dim span off =>
    simp only [op, bind_eq_pure_iff, reportIf_eq_pure_iff, offset_eq_pure_iff, pure_eq_pure_iff,
      Bool.or_eq_false_iff, decide_eq_false_iff_not]
    cases o with
    | index d o =>
      simp only [OpDecl.Denotes, Op.index.injEq]
      constructor
      · rintro ⟨_, ⟨hneg, hlt⟩, _, hoff, rfl, rfl⟩
        exact ⟨by omega, by omega, hoff⟩
      · rintro ⟨rfl, hlt, hoff⟩
        exact ⟨(), ⟨by omega, by omega⟩, o, hoff, by omega, rfl⟩
    | _ => simp [OpDecl.Denotes]
  | constant c => cases o <;> simp [op, OpDecl.Denotes]
  | unary g a => cases o <;> simp [op, OpDecl.Denotes, value_eq_pure_iff, and_comm]
  | binary g l r => 
    cases o <;> simp [op, OpDecl.Denotes, value_eq_pure_iff]
    tauto
  | call callee args isPure =>
    cases o <;> simp [op, OpDecl.Denotes, value_eq_pure_iff]
    tauto

theorem statements_cons_eq_pure_iff {rank : Nat} {subject : Subject} {operands defined all : List String}
    {s : StatementDecl} {ss : List StatementDecl} {os : List Op} :
    statements rank subject operands defined (s :: ss) = pure (os, all) ↔
      ∃ o, s.op.Denotes rank operands defined o ∧ s.result.text ∉ defined ∧
        ∃ os', statements rank subject operands (defined ++ [s.result.text]) ss = pure (os', all) ∧
          o :: os' = os := by
  simp [statements, op_eq_pure_iff]

theorem unroll_eq_pure_iff {rank : Nat} {span : Span} {d : Option (Int × Int)} {u : Option Unroll} :
    unroll rank span d = pure u ↔
      d = u.map (fun u => ((u.axis : Int), (u.factor : Int))) ∧
        ∀ v, u = some v → v.axis < rank ∧ 0 < v.factor ∧ (v.factor : Int) ≤ maxFactor := by
  cases d with
  | none => cases u <;> simp [unroll]
  | some d =>
    obtain ⟨axis, factor⟩ := d
    constructor
    · intro h
      simp only [unroll] at h
      split at h
      · simp [report_ne_pure] at h
      · rename_i haxis
        split at h
        · simp [report_ne_pure] at h
        · rename_i hfactor
          cases pure_eq_pure_iff.mp h
          simp only [Bool.or_eq_true, decide_eq_true_eq, not_or] at haxis hfactor
          refine ⟨?_, ?_⟩
          · simp only [Option.map_some, Option.some.injEq, Prod.mk.injEq]
            omega
          · rintro v ⟨⟩
            dsimp only
            omega
    · rintro ⟨hd, hu⟩
      cases u with
      | none => cases hd
      | some v =>
        obtain ⟨haxis, hpos, hmax⟩ := hu v rfl
        cases hd
        have haxis : ¬((v.axis : Int) < 0 || (rank : Int) ≤ v.axis) = true := by
          simp only [Bool.or_eq_true, decide_eq_true_eq]
          omega
        have hfactor : ¬((v.factor : Int) < 1 || maxFactor < (v.factor : Int)) = true := by
          simp only [Bool.or_eq_true, decide_eq_true_eq]
          omega
        simp only [unroll]
        rw [if_neg haxis, if_neg hfactor]
        rfl

theorem body_eq_pure_iff {rank : Nat} {subject : Subject} {operands : List String} {results : Nat}
    {d : BodyDecl}
    {b : Body} :
    body rank subject operands results d = pure b ↔
      ∃ defined, statements rank subject operands [] d.statements = pure (b.ops, defined) ∧
        List.Forall₂ (fun (n : Name) v => defined.idxOf? n.text = some v) d.ret.values b.ret.values ∧
        unroll rank d.ret.span d.ret.unroll = pure b.ret.unroll ∧
        b.ret.values.length = results * b.ret.factor := by
  obtain ⟨ops, values, u⟩ := b
  simp [body, value_eq_pure_iff]

def Scope.lookup (scope : Scope) : OperandDecl → Option Operand
  | .temp n => (scope.temps.idxOf? n.text).map Operand.temp
  | .buffer n => (scope.buffers.idxOf? n.text).map Operand.buffer

theorem operands_cons_eq_pure_iff {scope : Scope} {region : String} {seen : List String} {d : OperandDecl}
    {ds : List OperandDecl} {os : List Operand} :
    operands scope region seen (d :: ds) = pure os ↔
      d.text ∉ seen ∧ ∃ o, scope.lookup d = some o ∧
        ∃ os', operands scope region (seen ++ [d.text]) ds = pure os' ∧ o :: os' = os := by
  cases d with
  | temp n => cases hn : scope.temps.idxOf? n.text <;> simp [operands, Scope.lookup, hn]
  | buffer n => cases hn : scope.buffers.idxOf? n.text <;> simp [operands, Scope.lookup, hn]

theorem operands_eq_pure_iff {scope : Scope} {region : String} {seen : List String}
    {ds : List OperandDecl}
    {os : List Operand} :
    operands scope region seen ds = pure os ↔
      List.Forall₂ (fun d o => scope.lookup d = some o) ds os ∧
        (ds.map OperandDecl.text).Nodup ∧ ∀ d ∈ ds, d.text ∉ seen := by
  induction ds generalizing seen os with
  | nil => simp [operands, eq_comm]
  | cons d ds ih =>
    rw [operands_cons_eq_pure_iff]
    simp only [ih, List.forall₂_cons_left_iff, List.map_cons, List.nodup_cons, List.mem_map,
      List.forall_mem_cons]
    constructor
    · rintro ⟨hseen, o, ho, os', ⟨hos, hnodup, hfresh⟩, rfl⟩
      refine ⟨⟨o, os', ho, hos, rfl⟩, ⟨?_, hnodup⟩, hseen,
        fun x hx h => hfresh x hx (List.mem_append_left _ h)⟩
      rintro ⟨x, hx, heq⟩
      exact hfresh x hx (by simp [heq])
    · rintro ⟨⟨o, os', ho, hos, rfl⟩, ⟨hdistinct, hnodup⟩, hseen, hfresh⟩
      refine ⟨hseen, o, ho, os', ⟨hos, hnodup, fun x hx h => ?_⟩, rfl⟩
      rcases List.mem_append.mp h with h | h
      · exact hfresh x hx h
      · exact hdistinct ⟨x, hx, List.mem_singleton.mp h⟩

theorem epilogue_eq_pure_iff {rank : Nat} {subject : Subject} {written : List String} {results : Nat}
    {main : Body}
    {d : Option BodyDecl} {e : Option Body} :
    epilogue rank subject written results main d = pure e ↔
      Option.Rel (fun d b => main.ret.unroll.isSome = true ∧
        body rank subject written results d = pure b ∧
        b.ret.unroll = none) d e := by
  cases d with
  | none => cases e <;> simp [epilogue]
  | some d => cases e <;> simp [epilogue, Option.isSome_iff_ne_none]

theorem region_eq_pure_iff {scope : Scope} {id : RegionId} {d : RegionDecl} {results : List TempId}
    {s : Shape}
    {r : Region} :
    region scope id d results s = pure r ↔
      r.name = d.name.text ∧ r.results = results ∧ r.shape = s ∧
        operands scope d.name.text [] d.operands = pure r.operands ∧
        body scope.rank (.region id d.name.text)
          (d.operands.map OperandDecl.text) d.results.length d.body =
          pure r.body ∧
        epilogue scope.rank (.region id d.name.text)
          (d.operands.map OperandDecl.text) d.results.length r.body
          d.epilogue = pure r.epilogue := by
  obtain ⟨name, ops, main, rest, results', shape⟩ := r
  simp only [region, bind_eq_pure_iff, pure_eq_pure_iff, Region.mk.injEq]
  constructor
  · rintro ⟨_, hops, _, hmain, _, hrest, rfl, rfl, rfl, rfl, rfl, rfl⟩
    exact ⟨rfl, rfl, rfl, hops, hmain, hrest⟩
  · rintro ⟨rfl, rfl, rfl, hops, hmain, hrest⟩
    exact ⟨ops, hops, main, hmain, rest, hrest, rfl, rfl, rfl, rfl, rfl, rfl⟩

namespace Declared

theorem addBuffer_eq_pure_iff {rank : Nat} {d d' : Declared} {b : BufferDecl} :
    addBuffer rank d b = pure d' ↔
      ∃ x, b.Denotes rank x ∧ x.name ∉ d.buffers.map (·.name) ∧
        { d with buffers := d.buffers ++ [x] } = d' := by
  unfold addBuffer
  split
  · rename_i h
    simp only [bind_eq_pure_iff, report_ne_pure, false_and, exists_false, false_iff, not_exists, not_and]
    intro x hx hfresh
    rw [hx.name] at hfresh
    simp only [List.any_eq_true, decide_eq_true_eq] at h
    simp only [List.mem_map] at hfresh
    exact absurd h hfresh
  · rename_i h
    simp only [List.any_eq_true, decide_eq_true_eq] at h
    simp only [bind_eq_pure_iff, elemType_eq_pure_iff, optionalBox_eq_pure_iff, shape_eq_pure_iff,
      pure_eq_pure_iff]
    constructor
    · rintro ⟨elem, helem, domain, hdomain, required, hrequired, rfl⟩
      exact ⟨_, ⟨rfl, helem, hdomain, hrequired⟩, by simpa using h, rfl⟩
    · rintro ⟨x, hx, _, rfl⟩
      exact ⟨x.elem, hx.elem, x.domain, hx.domain, x.required, hx.required, by rw [← hx.name]⟩

theorem addResult_eq_pure_iff {rank : Nat} {producer : RegionId} {index : Nat} {type : TypeDecl}
    {temps temps' : List Temporary} {n : Name} :
    addResult rank producer index (some type) temps n = pure temps' ↔
      ∃ x : Temporary, type.Denotes rank x ∧ x.name = n.text ∧ x.producer = producer ∧
        x.resultIndex = index ∧
        n.text ∉ temps.map (·.name) ∧ temps ++ [x] = temps' := by
  unfold addResult
  split
  · rename_i h
    simp only [bind_eq_pure_iff, report_ne_pure, false_and, exists_false, false_iff, not_exists, not_and]
    intro x _ _ _ _ hfresh
    simp only [List.any_eq_true, decide_eq_true_eq] at h
    simp only [List.mem_map] at hfresh
    exact absurd h hfresh
  · rename_i h
    simp only [List.any_eq_true, decide_eq_true_eq] at h
    simp only [bind_eq_pure_iff, elemType_eq_pure_iff, shape_eq_pure_iff, pure_eq_pure_iff,
      Option.bind_some]
    constructor
    · rintro ⟨elem, helem, shape, hshape, rfl⟩
      exact ⟨⟨n.text, elem, producer, index, shape⟩, ⟨helem, hshape⟩, rfl, rfl,
        rfl, by simpa using h, rfl⟩
    · rintro ⟨⟨_, elem, _, _, shape⟩, ⟨helem, hshape⟩, rfl, rfl, rfl, _, rfl⟩
      exact ⟨elem, helem, shape, hshape, rfl⟩

/-- The results of a region, from number `index` on. -/
structure Results (rank : Nat) (producer : RegionId) (index : Nat) (types : List TypeDecl)
    (names : List Name)
    (before xs : List Temporary) : Prop where
  types : List.Forall₂ (TypeDecl.Denotes rank) types xs
  names : xs.map (·.name) = names.map (·.text)
  distinct : ((before ++ xs).map (·.name)).Nodup
  places : ∀ (i : Nat) x, xs[i]? = some x → x.producer = producer ∧ x.resultIndex = index + i

theorem addResults_eq_pure_iff {rank : Nat} {producer : RegionId} {index : Nat} {types : List TypeDecl}
    {temps temps' : List Temporary} {names : List Name} (hlen : types.length = names.length)
    (hnodup : (temps.map (·.name)).Nodup) :
    addResults rank producer index types temps names = pure temps' ↔
      ∃ xs, Results rank producer index types names temps xs ∧ temps ++ xs = temps' := by
  induction names generalizing index types temps with
  | nil =>
    cases List.eq_nil_of_length_eq_zero hlen
    simp only [addResults, pure_eq_pure_iff]
    constructor
    · rintro rfl
      exact ⟨[], ⟨.nil, rfl, by simpa using hnodup, by simp⟩, by simp⟩
    · rintro ⟨xs, hxs, rfl⟩
      cases hxs.types
      simp
  | cons n names ih =>
    cases types with
    | nil => cases hlen
    | cons type types =>
      simp only [addResults, List.head?_cons, List.tail_cons, bind_eq_pure_iff, addResult_eq_pure_iff]
      have hlen : types.length = names.length := by simpa using hlen
      constructor
      · rintro ⟨_, ⟨x, hx, hname, hproducer, hindex, hfresh, rfl⟩, h⟩
        have hnodup : ((temps ++ [x]).map (·.name)).Nodup := by
          rw [List.map_append, List.map_singleton, hname, ← List.concat_eq_append]
          exact hnodup.concat hfresh
        obtain ⟨xs, hxs, rfl⟩ := (ih hlen hnodup).mp h
        refine ⟨x :: xs, ⟨.cons hx hxs.types, by simp [hname, hxs.names], by simpa using hxs.distinct,
          ?_⟩, by simp⟩
        intro i y hy
        cases i with
        | zero =>
          cases hy
          exact ⟨hproducer, hindex⟩
        | succ i =>
          obtain ⟨hp, hi⟩ := hxs.places i y hy
          exact ⟨hp, by omega⟩
      · rintro ⟨_, ⟨htypes, hnames, hdistinct, hplaces⟩, rfl⟩
        obtain ⟨x, xs, hx, hrest, rfl⟩ := List.forall₂_cons_left_iff.mp htypes
        simp only [List.map_cons, List.cons.injEq] at hnames
        obtain ⟨hproducer, hindex⟩ := hplaces 0 x rfl
        have hassoc : temps ++ x :: xs = temps ++ [x] ++ xs := by simp
        rw [hassoc] at hdistinct
        have hnodup : ((temps ++ [x]).map (·.name)).Nodup := by
          rw [List.map_append] at hdistinct
          exact hdistinct.of_append_left
        have hxs : Results rank producer (index + 1) types names (temps ++ [x]) xs := by
          refine ⟨hrest, hnames.2, hdistinct, fun i y hy => ?_⟩
          obtain ⟨hp, hi⟩ := hplaces (i + 1) y hy
          exact ⟨hp, by omega⟩
        refine ⟨temps ++ [x], ⟨x, hx, hnames.1, hproducer, hindex, ?_, rfl⟩,
          (ih hlen hnodup).mpr ⟨xs, hxs, hassoc.symm⟩⟩
        rw [List.map_append, List.map_singleton, hnames.1] at hnodup
        exact fun h => (List.nodup_append.mp hnodup).2.2 _ h _ (List.mem_singleton_self _) rfl

theorem addRegion_eq_pure_iff {rank : Nat} {d d' : Declared} {r : RegionDecl}
    (hnodup : (d.temps.map (·.name)).Nodup) :
    addRegion rank d r = pure d' ↔
      r.name.text ∉ d.regions.map (·.1.name.text) ∧ ∃ xs,
        Results rank d.regions.length 0 r.types r.results d.temps xs ∧
        { d with
          temps := d.temps ++ xs,
          regions := d.regions ++ [(r, List.range' d.temps.length xs.length)] } = d' := by
  unfold addRegion
  cases hfind : d.regions.reverse.find? (·.1.name.text = r.name.text) with
  | some earlier =>
    have hmem := List.mem_of_find?_eq_some hfind
    have hname := List.find?_some hfind
    simp only [List.mem_reverse, decide_eq_true_eq] at hmem hname
    simp only [bind_eq_pure_iff, reportHint_ne_pure, false_and, exists_false, false_iff, not_and]
    intro h
    exact absurd (List.mem_map.mpr ⟨earlier, hmem, hname⟩) h
  | none =>
    have hfresh : r.name.text ∉ d.regions.map (·.1.name.text) := by
      intro h
      obtain ⟨x, hx, hname⟩ := List.mem_map.mp h
      have := List.find?_eq_none.mp hfind x (List.mem_reverse.mpr hx)
      simp [hname] at this
    simp only [bind_eq_pure_iff, reportIf_eq_pure_iff, pure_eq_pure_iff, hfresh, not_false_eq_true,
      true_and]
    constructor
    · rintro ⟨_, hlen, _, h, rfl⟩
      obtain ⟨xs, hxs, rfl⟩ := (addResults_eq_pure_iff (by simpa using hlen) hnodup).mp h
      refine ⟨xs, hxs, ?_⟩
      rw [List.length_append, Nat.add_sub_cancel_left, List.range_eq_range', List.map_add_range']
      simp
    · rintro ⟨xs, hxs, rfl⟩
      have hlen : r.types.length = r.results.length := by
        have hnames := congrArg List.length hxs.names
        simp only [List.length_map] at hnames
        rw [hxs.types.length_eq, hnames]
      refine ⟨(), by simpa using hlen, d.temps ++ xs,
        (addResults_eq_pure_iff hlen hnodup).mpr ⟨xs, hxs, rfl⟩, ?_⟩
      rw [List.length_append, Nat.add_sub_cancel_left, List.range_eq_range', List.map_add_range']
      simp

theorem resolveRegions_cons_eq_pure_iff {d : Declared} {scope : Scope} {id : RegionId} {r : RegionDecl}
    {results : List TempId} {rest : List (RegionDecl × List TempId)} {rs : List Region} :
    resolveRegions d scope id ((r, results) :: rest) = pure rs ↔
      ∃ x xs, (match r.domain with
          | some b => x.shape.DenotedBy scope.rank (some b)
          | none => x.shape = d.joinedShape results) ∧
        region scope id r results x.shape = pure x ∧ resolveRegions d scope (id + 1) rest = pure xs ∧
        x :: xs = rs := by
  cases hd : r.domain with
  | some b =>
    simp only [resolveRegions, hd, bind_eq_pure_iff, shape_eq_pure_iff, pure_eq_pure_iff]
    constructor
    · rintro ⟨s, hs, x, hx, xs, hxs, rfl⟩
      obtain ⟨_, _, rfl, _⟩ := region_eq_pure_iff.mp hx
      exact ⟨x, xs, hs, hx, hxs, rfl⟩
    · rintro ⟨x, xs, hs, hx, hxs, rfl⟩
      exact ⟨x.shape, hs, x, hx, xs, hxs, rfl⟩
  | none =>
    simp only [resolveRegions, hd, bind_eq_pure_iff, pure_eq_pure_iff]
    constructor
    · rintro ⟨s, rfl, x, hx, xs, hxs, rfl⟩
      have hs := (region_eq_pure_iff.mp hx).2.2.1
      exact ⟨x, xs, hs, hs ▸ hx, hxs, rfl⟩
    · rintro ⟨x, xs, hs, hx, hxs, rfl⟩
      exact ⟨_, hs.symm, x, hx, xs, hxs, rfl⟩

end Declared

theorem outputs_cons_eq_pure_iff {scope : Scope} {o : OutputDecl} {rest : List ItemDecl}
    {os : List OutputMark} :
    outputs scope (.output o :: rest) = pure os ↔
      ∃ t b os', scope.temps.idxOf? o.temp.text = some t ∧ o.domain.Denotes scope.rank b ∧
        outputs scope rest = pure os' ∧ ⟨t, b⟩ :: os' = os := by
  cases ht : scope.temps.idxOf? o.temp.text with
  | none => simp [outputs, ht, report_ne_pure]
  | some t =>
    simp only [outputs, ht, bind_eq_pure_iff, box_eq_pure_iff, pure_eq_pure_iff, Option.some.injEq]
    constructor
    · rintro ⟨_, ⟨b, rfl, hb⟩, os', hos, rfl⟩
      exact ⟨t, b, os', rfl, hb, hos, rfl⟩
    · rintro ⟨_, b, os', rfl, hb, hos, rfl⟩
      exact ⟨some b, ⟨b, rfl, hb⟩, os', hos, rfl⟩

theorem function_eq_pure_iff {d : FuncDecl} {f : Func} :
    function d = pure (some f) ↔
      0 < f.rank ∧ d.rank = f.rank ∧ f.name = d.name.text ∧ f.stamp = none ∧
        ∃ declared regions, Declared.addItems f.rank .empty d.items = pure declared ∧
          f.buffers = declared.buffers ∧ f.temps = declared.temps.map some ∧
            f.regions = regions.map some ∧
          declared.resolveRegions (declared.scope f.rank) 0 declared.regions = pure regions ∧
          outputs (declared.scope f.rank) d.items = pure f.outputs := by
  obtain ⟨name, rank, buffers, temps, regions, outs, stamp⟩ := f
  unfold function
  split
  · rename_i hrank
    simp only [bind_eq_pure_iff, report_ne_pure, false_and, exists_false, false_iff, not_and]
    omega
  · rename_i hrank
    simp only [bind_eq_pure_iff, pure_eq_pure_iff, Option.some.injEq, Func.mk.injEq]
    constructor
    · rintro ⟨declared, hitems, regions', hregions, outs', houts, rfl, rfl, rfl, rfl, rfl, rfl, rfl⟩
      exact ⟨by omega, by omega, rfl, rfl, declared, regions', hitems, rfl, rfl, rfl, hregions, houts⟩
    · rintro ⟨_, hr, rfl, rfl, declared, regions', hitems, rfl, rfl, rfl, hregions, houts⟩
      have hr : d.rank.toNat = rank := by omega
      rw [hr]
      exact ⟨declared, hitems, regions', hregions, outs, houts, rfl, rfl, rfl, rfl, rfl, rfl, rfl⟩

end Resolution

end Stencil
