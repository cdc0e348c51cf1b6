import Mathlib.Data.List.ReduceOption
import Stencil.Json.Program
import Stencil.Proofs.Agreement
import Stencil.Proofs.JsonText

/-! A program reads back from its JSON text, all but its stamps. The numbers of a program must fit
into the words that hold them, and the text of each of its constants must read back as well. -/

set_option autoImplicit false

namespace Stencil

namespace Json

variable {α β : Type}

/-- The value can be written and read, and is taken apart as `x`. -/
structure Carries (decode : Json → Option α) (j : Json) (x : α) : Prop where
  legible : j.Legible
  decoded : decode j = some x

theorem legible_record {fields : List (String × Json)} (h : ∀ f ∈ fields, f.2.Legible) :
    (record fields).Legible := by
  refine .obj ?_ ?_
  · intro f hf
    obtain ⟨g, _, rfl⟩ := List.mem_map.mp hf
    rfl
  · intro f hf
    obtain ⟨g, hg, rfl⟩ := List.mem_map.mp hf
    exact h g hg

theorem Carries.map {decode : Json → Option α} {j : Json} {x : α} (h : Carries decode j x) (f : α → β) :
    Carries (fun j => (decode j).map f) j (f x) := ⟨h.legible, by rw [h.decoded, Option.map_some]⟩

theorem Carries.required {decode : Json → Option α} {j : Json} {x : α} (h : Carries decode j x) :
    required? decode (some j) = some x := h.decoded

theorem Carries.optional {decode : Json → Option α} {j : Json} {o : Option α}
    (h : Carries (toOption? decode) j o) :
    optional? decode (some j) = some o := h.decoded

theorem carries_tagged {decode : Json → Option α} {name : String} {content : Json} {x : α}
    (take : Json → Option α)
    (h : Carries take content x) (hdecode : decode (tagged name content) = take content) :
    Carries decode (tagged name content) x :=
  ⟨legible_record (by simpa using h.legible), hdecode.trans h.decoded⟩

theorem field?_record {fields : List (String × Json)} (h : (fields.map (·.1)).Nodup) {f : String × Json}
    (hf : f ∈ fields) : field? f.1 (fields.map fun f => (some f.1, f.2)) = some f.2 := by
  induction fields with
  | nil => cases hf
  | cons g fields ih =>
    rw [List.map_cons, List.nodup_cons] at h
    rw [List.map_cons, field?]
    rcases List.mem_cons.mp hf with rfl | hf
    · rw [if_pos rfl]
    · rw [if_neg, ih h.2 hf]
      intro heq
      refine h.1 ?_
      rw [Option.some.inj heq]
      exact List.mem_map_of_mem hf

theorem members?_record {fields : List (String × Json)} {names : List String}
    (hnames : fields.map (·.1) = names)
    (h : names.Nodup) : (record fields).members? .plain names = some (fields.map fun f => some f.2) := by
  subst hnames
  have hkeys : (fields.map fun f => (some f.1, f.2)).map (·.1) = (fields.map (·.1)).map some := by
    simp [Function.comp_def]
  have hcount : ∀ n : String, ((fields.map (·.1)).map some).count (some n) ≤ 1 :=
    fun n => List.nodup_iff_count_le_one.mp (h.map (Option.some_injective _)) _
  rw [record, members?]
  simp only [hkeys]
  rw [if_neg (by simp), if_neg (by simpa using fun a b _ => hcount a),
    if_neg (by simp [RecordRule.plain]), List.map_map]
  congr 1
  apply List.map_congr_left
  intro f hf
  exact field?_record h hf

/-- A record is taken apart as its fields are. -/
theorem carries_record {decode : Json → Option α} {fields : List (String × Json)} {x : α}
    (names : List String)
    (hnames : fields.map (·.1) = names) (h : names.Nodup) (hfields : ∀ f ∈ fields, f.2.Legible)
    (hdecode : (record fields).members? .plain names = some (fields.map fun f => some f.2) →
      decode (record fields) = some x) : Carries decode (record fields) x :=
  ⟨legible_record hfields, hdecode (members?_record hnames h)⟩

theorem carries_string (s : String) : Carries toString? (ofString s) s := ⟨.str s, rfl⟩

theorem carries_bool (b : Bool) : Carries toBool? (bool b) b := ⟨.bool b, rfl⟩

theorem carries_int {z : Int} (h : Lexer.intInRange z = true) : Carries toInt? (ofInt z) z := by
  simp only [Lexer.intInRange, Bool.and_eq_true, decide_eq_true_eq] at h
  refine ⟨.int (by simp only [isReadable, Bool.and_eq_true, decide_eq_true_eq]; omega), ?_⟩
  rw [toInt?, ofInt, toIntIn?, if_pos (by simpa using h)]

/-- A natural number of 32 bits. -/
def isWord (n : Nat) : Bool := n ≤ 4294967295

/-- A natural number of 64 bits. -/
def isSize (n : Nat) : Bool := n ≤ 18446744073709551615

theorem legible_ofNat {n : Nat} (h : isSize n = true) : (ofNat n).Legible := by
  have h := of_decide_eq_true h
  exact .int (by simp only [isReadable, Bool.and_eq_true, decide_eq_true_eq]; omega)

theorem carries_size {n : Nat} (h : isSize n = true) : Carries toSize? (ofNat n) n := by
  refine ⟨legible_ofNat h, ?_⟩
  have h := of_decide_eq_true h
  rw [toSize?, ofNat, toIntIn?, if_pos (by simp; omega)]
  rfl

theorem carries_word {n : Nat} (h : isWord n = true) : Carries toWord? (ofNat n) n := by
  have h := of_decide_eq_true h
  refine ⟨legible_ofNat (decide_eq_true (by omega)), ?_⟩
  rw [toWord?, ofNat, toIntIn?, if_pos (by simp; omega)]
  rfl

theorem carries_scalar {x : Scalar} (hfin : x.isFinite = true) (h : Rereads x) :
    Carries toScalar? (ofScalar x) x := by
  rw [ofScalar, if_pos hfin]
  exact ⟨.float h, rfl⟩

theorem carries_list {encode : α → Json} {decode : Json → Option β} {g : α → β} {xs : List α}
    (h : ∀ x ∈ xs, Carries decode (encode x) (g x)) :
    Carries (toList? decode) (ofList encode xs) (xs.map g) := by
  constructor
  · refine .arr fun j hj => ?_
    obtain ⟨x, hx, rfl⟩ := List.mem_map.mp hj
    exact (h x hx).legible
  · rw [ofList, toList?, List.mapM_map]
    exact (Agreement.returns Option).mapM fun x hx => (h x hx).decoded

theorem carries_same {encode : α → Json} {decode : Json → Option α} {xs : List α}
    (h : ∀ x ∈ xs, Carries decode (encode x) x) : Carries (toList? decode) (ofList encode xs) xs := by
  have := carries_list (g := id) h
  rwa [List.map_id] at this

theorem carries_words {ns : List Nat} (h : ns.all isWord = true) :
    Carries (toList? toWord?) (ofList ofNat ns) ns :=
  carries_same fun n hn => carries_word (List.all_eq_true.mp h n hn)

theorem carries_option {encode : α → Json} {decode : Json → Option α} {o : Option α}
    (hnull : ∀ x, encode x ≠ null)
    (h : ∀ x ∈ o, Carries decode (encode x) x) : Carries (toOption? decode) (ofOption encode o) o := by
  cases o with
  | none => exact ⟨.null, rfl⟩
  | some x =>
    obtain ⟨hlegible, hdecoded⟩ := h x rfl
    refine ⟨hlegible, ?_⟩
    rw [ofOption]
    unfold toOption?
    split
    · rename_i heq
      exact absurd heq (hnull x)
    · rw [hdecoded]
      rfl

end Json

open Json

def Offset.portable (o : Offset) : Bool := o.all Lexer.intInRange

def Box.portable (b : Box) : Bool := b.lb.all Lexer.intInRange && b.ub.all Lexer.intInRange

def Shape.portable : Shape → Bool
  | .unknown => true
  | .known b => b.portable

def Operand.portable : Operand → Bool
  | .temp t => isWord t
  | .buffer b => isWord b

def Op.portable : Op → Bool
  | .access slot o => isSize slot && Offset.portable o
  | .index dim o => isSize dim && Offset.portable o
  | .constant _ => true
  | .unary _ a => isWord a
  | .binary _ l r => isWord l && isWord r
  | .call _ as _ => as.all isWord

def Unroll.portable (u : Unroll) : Bool := isSize u.axis && isWord u.factor

def Return.portable (r : Return) : Bool := r.values.all isWord && r.unroll.all Unroll.portable

def Body.portable (b : Body) : Bool := b.ops.all Op.portable && b.ret.portable

def Region.portable (r : Region) : Bool :=
  r.operands.all Operand.portable && r.body.portable && r.epilogue.all Body.portable && r.results.all
    isWord &&
    r.shape.portable

def Temporary.portable (t : Temporary) : Bool :=
  isWord t.producer && isSize t.resultIndex && t.shape.portable

def Buffer.portable (b : Buffer) : Bool := b.domain.all Box.portable && b.required.portable

def OutputMark.portable (o : OutputMark) : Bool := isWord o.temp && o.domain.portable

/-- Every number of the function fits into the word that holds it: 32 bits for the names of parts and
for factors, 64 bits for ranks, axes, slots and coordinates. -/
def Func.portable (f : Func) : Bool :=
  isSize f.rank && f.buffers.all Buffer.portable && f.temps.all (·.all Temporary.portable) &&
    f.regions.all (·.all Region.portable) && f.outputs.all OutputMark.portable

def Program.portable (p : Program) : Bool := p.functions.all Func.portable

def Op.constant? : Op → Option Scalar
  | .constant c => some c
  | _ => none

def Body.constants (b : Body) : List Scalar := b.ops.filterMap Op.constant?

def Region.constants (r : Region) : List Scalar := r.bodies.flatMap Body.constants

def Func.constants (f : Func) : List Scalar := f.regions.reduceOption.flatMap Region.constants

def Program.constants (p : Program) : List Scalar := p.functions.flatMap Func.constants

theorem Offset.carries {o : Offset} (h : o.portable = true) : Carries ofJson? (toJson o) o :=
  carries_same fun z hz => carries_int (List.all_eq_true.mp h z hz)

theorem Box.carries {b : Box} (h : b.portable = true) : Carries ofJson? b.toJson b := by
  obtain ⟨hlb, hub⟩ := Bool.and_eq_true_iff.mp h
  have hlb : Carries (toList? toInt?) (ofList ofInt b.lb) b.lb := Offset.carries hlb
  have hub : Carries (toList? toInt?) (ofList ofInt b.ub) b.ub := Offset.carries hub
  refine carries_record ["lb", "ub"] rfl (by decide) ?_ fun hmembers => ?_
  · simp [hlb.legible, hub.legible]
  · simp [ofJson?, hmembers, hlb.required, hub.required]

theorem Shape.carries {s : Shape} (h : s.portable = true) : Carries ofJson? s.toJson s := by
  cases s with
  | unknown => exact ⟨.str _, rfl⟩
  | known b => exact carries_tagged _ ((Box.carries h).map known) rfl

theorem ElemType.carries (e : ElemType) : Carries ofJson? e.toJson e := by
  refine ⟨.str _, ?_⟩
  cases e <;> rfl

theorem UnaryOp.carries (op : UnaryOp) : Carries ofJson? (.ofString op.tag) op := by
  refine ⟨.str _, ?_⟩
  cases op <;> rfl

theorem BinaryOp.carries (op : BinaryOp) : Carries ofJson? (.ofString op.tag) op := by
  refine ⟨.str _, ?_⟩
  cases op <;> rfl

theorem Operand.carries {o : Operand} (h : o.portable = true) : Carries ofJson? o.toJson o := by
  cases o with
  | temp t => exact carries_tagged _ ((carries_word h).map temp) rfl
  | buffer b => exact carries_tagged _ ((carries_word h).map buffer) rfl

namespace Op

theorem carries_placed {name : String} (hname : name ≠ "offset") (make : Nat → Offset → Op) {n : Nat}
    {o : Offset}
    (hn : isSize n = true) (ho : Offset.portable o = true) :
    Carries (placedOfJson? name make) (record [(name, .ofNat n),
      ("offset", Offset.toJson o)]) (make n o) := by
  have hn := carries_size hn
  have ho := Offset.carries ho
  refine carries_record [name, "offset"] rfl (by simpa using hname) ?_ fun hmembers => ?_
  · simp [hn.legible, ho.legible]
  · simp [placedOfJson?, hmembers, hn.required, ho.required]

theorem carries {op : Op} (h : op.portable = true)
    (hc : ∀ c ∈ op.constant?, c.isFinite = true ∧ Rereads c) :
    Carries ofJson? op.toJson op := by
  cases op with
  | access slot o =>
    obtain ⟨hslot, ho⟩ := Bool.and_eq_true_iff.mp h
    exact carries_tagged _ (carries_placed (by decide) access hslot ho) rfl
  | index dim o =>
    obtain ⟨hdim, ho⟩ := Bool.and_eq_true_iff.mp h
    exact carries_tagged _ (carries_placed (by decide) index hdim ho) rfl
  | constant c =>
    obtain ⟨hfin, hread⟩ := hc c rfl
    exact carries_tagged _ ((carries_scalar hfin hread).map constant) rfl
  | unary op a =>
    have hop := UnaryOp.carries op
    have ha := carries_word h
    refine carries_tagged unaryOfJson?
      (carries_record ["op", "arg"] rfl (by decide) ?_ fun hmembers => ?_) rfl
    · simp [hop.legible, ha.legible]
    · simp [unaryOfJson?, hmembers, hop.required, ha.required]
  | binary op l r =>
    obtain ⟨hl, hr⟩ := Bool.and_eq_true_iff.mp h
    have hop := BinaryOp.carries op
    have hl := carries_word hl
    have hr := carries_word hr
    refine carries_tagged binaryOfJson?
      (carries_record ["op", "lhs", "rhs"] rfl (by decide) ?_ fun hmembers => ?_) rfl
    · simp [hop.legible, hl.legible, hr.legible]
    · simp [binaryOfJson?, hmembers, hop.required, hl.required, hr.required]
  | call callee as isPure =>
    have hcallee := carries_string callee
    have has := carries_words h
    have hpure := carries_bool isPure
    refine carries_tagged callOfJson?
      (carries_record ["callee", "args", "pure"] rfl (by decide) ?_ fun hmembers => ?_) rfl
    · simp [hcallee.legible, has.legible, hpure.legible]
    · simp [callOfJson?, hmembers, hcallee.required, has.required, hpure.required]

end Op

theorem Unroll.carries {u : Unroll} (h : u.portable = true) : Carries ofJson? u.toJson u := by
  obtain ⟨haxis, hfactor⟩ := Bool.and_eq_true_iff.mp h
  have haxis := carries_size haxis
  have hfactor := carries_word hfactor
  refine carries_record ["axis", "factor"] rfl (by decide) ?_ fun hmembers => ?_
  · simp [haxis.legible, hfactor.legible]
  · simp [ofJson?, hmembers, haxis.required, hfactor.required]

theorem Return.carries {r : Return} (h : r.portable = true) : Carries ofJson? r.toJson r := by
  obtain ⟨hvalues, hunroll⟩ := Bool.and_eq_true_iff.mp h
  have hvalues := carries_words hvalues
  have hunroll : Carries (toOption? Unroll.ofJson?) (ofOption Unroll.toJson r.unroll) r.unroll :=
    carries_option (fun _ => nofun) fun u hu => Unroll.carries ((Option.all_eq_true _ _).mp hunroll u hu)
  refine carries_record ["values", "unroll"] rfl (by decide) ?_ fun hmembers => ?_
  · simp [hvalues.legible, hunroll.legible]
  · simp [ofJson?, hmembers, hvalues.required, hunroll.optional]

theorem Body.carries {b : Body} (h : b.portable = true)
    (hc : ∀ c ∈ b.constants, c.isFinite = true ∧ Rereads c) : Carries ofJson? b.toJson b := by
  obtain ⟨hops, hret⟩ := Bool.and_eq_true_iff.mp h
  have hops : Carries (toList? Op.ofJson?) (ofList Op.toJson b.ops) b.ops :=
    carries_same fun op hop => Op.carries (List.all_eq_true.mp hops op hop) fun c hc' =>
      hc c (List.mem_filterMap.mpr ⟨op, hop, hc'⟩)
  have hret := Return.carries hret
  refine carries_record ["ops", "ret"] rfl (by decide) ?_ fun hmembers => ?_
  · simp [hops.legible, hret.legible]
  · simp [ofJson?, hmembers, hops.required, hret.required]

theorem Region.carries {r : Region} (h : r.portable = true)
    (hc : ∀ c ∈ r.constants, c.isFinite = true ∧ Rereads c) : Carries ofJson? r.toJson r := by
  simp only [Region.portable, Bool.and_eq_true] at h
  obtain ⟨⟨⟨⟨hoperands, hbody⟩, hepilogue⟩, hresults⟩, hshape⟩ := h
  have hconstants : ∀ b ∈ r.bodies, ∀ c ∈ b.constants, c.isFinite = true ∧ Rereads c :=
    fun b hb c hc' => hc c (List.mem_flatMap.mpr ⟨b, hb, hc'⟩)
  have hname := carries_string r.name
  have hoperands : Carries (toList? Operand.ofJson?) (ofList Operand.toJson r.operands) r.operands :=
    carries_same fun o ho => Operand.carries (List.all_eq_true.mp hoperands o ho)
  have hbody := Body.carries hbody (hconstants r.body (by simp [Region.bodies]))
  have hepilogue : Carries (toOption? Body.ofJson?) (ofOption Body.toJson r.epilogue) r.epilogue :=
    carries_option (fun _ => nofun) fun e he => Body.carries ((Option.all_eq_true _ _).mp hepilogue e he)
      (hconstants e (by simp [Region.bodies, Option.mem_def.mp he]))
  have hresults := carries_words hresults
  have hshape := Shape.carries hshape
  refine carries_record ["name", "operands", "body", "epilogue", "results",
    "shape"] rfl (by decide) ?_ fun hmembers => ?_
  · simp [hname.legible, hoperands.legible, hbody.legible, hepilogue.legible, hresults.legible,
      hshape.legible]
  · simp [ofJson?, hmembers, hname.required, hoperands.required, hbody.required, hepilogue.optional,
      hresults.required, hshape.required]

theorem Temporary.carries {t : Temporary} (h : t.portable = true) : Carries ofJson? t.toJson t := by
  simp only [Temporary.portable, Bool.and_eq_true] at h
  obtain ⟨⟨hproducer, hindex⟩, hshape⟩ := h
  have hname := carries_string t.name
  have helem := ElemType.carries t.elem
  have hproducer := carries_word hproducer
  have hindex := carries_size hindex
  have hshape := Shape.carries hshape
  refine carries_record ["name", "elem", "producer", "result_index",
    "shape"] rfl (by decide) ?_ fun hmembers => ?_
  · simp [hname.legible, helem.legible, hproducer.legible, hindex.legible, hshape.legible]
  · simp [ofJson?, hmembers, hname.required, helem.required, hproducer.required, hindex.required,
      hshape.required]

theorem Buffer.carries {b : Buffer} (h : b.portable = true) : Carries ofJson? b.toJson b := by
  obtain ⟨hdomain, hrequired⟩ := Bool.and_eq_true_iff.mp h
  have hname := carries_string b.name
  have helem := ElemType.carries b.elem
  have hdomain : Carries (toOption? Box.ofJson?) (ofOption Box.toJson b.domain) b.domain :=
    carries_option (fun _ => nofun) fun d hd => Box.carries ((Option.all_eq_true _ _).mp hdomain d hd)
  have hrequired := Shape.carries hrequired
  refine carries_record ["name", "elem", "domain", "required"] rfl (by decide) ?_ fun hmembers => ?_
  · simp [hname.legible, helem.legible, hdomain.legible, hrequired.legible]
  · simp [ofJson?, hmembers, hname.required, helem.required, hdomain.optional, hrequired.required]

theorem OutputMark.carries {o : OutputMark} (h : o.portable = true) : Carries ofJson? o.toJson o := by
  obtain ⟨htemp, hdomain⟩ := Bool.and_eq_true_iff.mp h
  have htemp := carries_word htemp
  have hdomain := Box.carries hdomain
  refine carries_record ["temp", "domain"] rfl (by decide) ?_ fun hmembers => ?_
  · simp [htemp.legible, hdomain.legible]
  · simp [ofJson?, hmembers, htemp.required, hdomain.required]

theorem Func.carries {f : Func} (h : f.portable = true)
    (hc : ∀ c ∈ f.constants, c.isFinite = true ∧ Rereads c) :
    Carries ofJson? f.toJson f.invalidate := by
  simp only [Func.portable, Bool.and_eq_true] at h
  obtain ⟨⟨⟨⟨hrank, hbuffers⟩, htemps⟩, hregions⟩, houtputs⟩ := h
  have hname := carries_string f.name
  have hrank := carries_size hrank
  have hbuffers : Carries (toList? Buffer.ofJson?) (ofList Buffer.toJson f.buffers) f.buffers :=
    carries_same fun b hb => Buffer.carries (List.all_eq_true.mp hbuffers b hb)
  have htemps : Carries (toList? (toOption? Temporary.ofJson?))
      (ofList (ofOption Temporary.toJson) f.temps) f.temps :=
    carries_same fun o ho => carries_option (fun _ => nofun) fun t ht =>
      Temporary.carries ((Option.all_eq_true _ _).mp (List.all_eq_true.mp htemps o ho) t ht)
  have hregions : Carries (toList? (toOption? Region.ofJson?))
      (ofList (ofOption Region.toJson) f.regions) f.regions :=
    carries_same fun o ho => carries_option (fun _ => nofun) fun r hr =>
      Region.carries ((Option.all_eq_true _ _).mp (List.all_eq_true.mp hregions o ho) r hr)
        fun c hc' => by
        refine hc c (List.mem_flatMap.mpr ⟨r, List.reduceOption_mem_iff.mpr ?_, hc'⟩)
        rwa [← Option.mem_def.mp hr]
  have houtputs : Carries (toList? OutputMark.ofJson?) (ofList OutputMark.toJson f.outputs) f.outputs :=
    carries_same fun o ho => OutputMark.carries (List.all_eq_true.mp houtputs o ho)
  refine carries_record ["name", "rank", "buffers", "temps", "regions",
    "outputs"] rfl (by decide) ?_ fun hmembers => ?_
  · simp [hname.legible, hrank.legible, hbuffers.legible, htemps.legible, hregions.legible,
      houtputs.legible]
  · simp [ofJson?, hmembers, hname.required, hrank.required, hbuffers.required, htemps.required,
      hregions.required, houtputs.required, Func.invalidate]

namespace Program

/-- A program reads back from its JSON text: everything but the stamps, whatever names, empty places
and annotations it has, if its constants are finite and the text of each of them reads back. -/
theorem json_round_trip {p : Program} (hportable : p.portable = true)
    (hfinite : ∀ c ∈ p.constants, c.isFinite = true)
    (hscalars : ∀ c ∈ p.constants, c.isFinite = true → Rereads c) :
    readJson? p.jsonText = some p.invalidate := by
  have hfunctions :
      Carries (toList? Func.ofJson?) (ofList Func.toJson p.functions) (p.functions.map Func.invalidate) :=
    carries_list fun f hf => Func.carries (List.all_eq_true.mp hportable f hf) fun c hc => by
      have hmem : c ∈ p.constants := List.mem_flatMap.mpr ⟨f, hf, hc⟩
      exact ⟨hfinite c hmem, hscalars c hmem (hfinite c hmem)⟩
  have hprogram : Carries ofJson? p.toJson p.invalidate := by
    refine carries_record ["functions"] rfl (by decide) ?_ fun hmembers => ?_
    · simp [hfunctions.legible]
    · simp [ofJson?, hmembers, hfunctions.required, invalidate]
  rw [readJson?, jsonText, hprogram.legible.read_pretty, Option.bind_some, hprogram.decoded]

/-- A function with an awkward name, places that were emptied, the greatest and the least
coordinate, an epilogue and a stamp. -/
def weathered : Program :=
  ⟨[{ name := "f \"\\\n\x01é"
      rank := 1
      buffers := [⟨"in", .f64, some ⟨[-9223372036854775808], [9223372036854775807]⟩, .unknown⟩]
      temps := [none, some ⟨"p", .f32, 1, 0, .known ⟨[0], [4]⟩⟩]
      regions :=
        [none,
         some ⟨"p", [.buffer 0],
          ⟨[.access 0 [-1], .constant (Scalar.ofDecimal true 1 (-7)), .binary .add 0 1],
            ⟨[2, 2], some ⟨0, 2⟩⟩⟩,
          some ⟨[.call "trace" [] false, .constant Scalar.zero.negated], ⟨[1], none⟩⟩, [1], .unknown⟩]
      outputs := [⟨1, ⟨[0], [4]⟩⟩]
      stamp := some [7] }]⟩

theorem json_round_trip_weathered : weathered.portable = true ∧
    (∀ c ∈ weathered.constants, c.isFinite = true ∧ Rereads c) ∧
      readJson? weathered.jsonText = some weathered.invalidate := by
  have hconstants : ∀ c ∈ weathered.constants, c.isFinite = true ∧ Rereads c := by decide +kernel
  refine ⟨by decide, hconstants, ?_⟩
  exact json_round_trip (by decide) (fun c hc => (hconstants c hc).1) fun c hc _ => (hconstants c hc).2

end Program

end Stencil
