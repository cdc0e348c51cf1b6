import Stencil.Proofs.Reading

/-! The declarations that the tokens of a printable function make up: each stands for the part of
the function that the tokens were written for. -/

set_option autoImplicit false

namespace Stencil

open Lexer Reading

theorem idxOf?_of_nodup {l : List String} {i : Nat} {a : String} (h : l.Nodup) (hi : l[i]? = some a) :
    l.idxOf? a = some i := by
  obtain ⟨hlt, rfl⟩ := List.getElem?_eq_some_iff.mp hi
  refine List.idxOf?_eq_some_iff.mpr ⟨hlt, rfl, fun j hj heq => ?_⟩
  have := (List.Nodup.getElem_inj_iff h).mp heq
  omega

def valueNames (n : Nat) : List String := (List.range n).map natText

theorem valueNames_succ (n : Nat) : valueNames (n + 1) = valueNames n ++ [natText n] := by
  simp [valueNames, List.range_succ]

theorem natText_mem_valueNames {v n : Nat} : natText v ∈ valueNames n ↔ v < n := by
  rw [valueNames, List.mem_map_of_injective fun _ _ => natText_injective, List.mem_range]

theorem idxOf?_valueNames {v n : Nat} (h : v < n) : (valueNames n).idxOf? (natText v) = some v := by
  refine idxOf?_of_nodup (List.nodup_range.map fun _ _ => natText_injective) ?_
  simp [valueNames, h]

namespace Func

variable {f : Func} {id : RegionId} {r : Region}

theorem operandName_inj {o o' : Operand} (h : f.Legible) (ho : f.operandLive o = true)
    (ho' : f.operandLive o' = true) (heq : f.operandName o = f.operandName o') : o = o' := by
  have hsigil : ∀ m n : String, "%" ++ m ≠ "@" ++ n := by
    intro m n h
    have := congrArg String.toList h
    simp [String.toList_append] at this
  cases o with
  | temp t =>
    obtain ⟨x, hx⟩ := Option.isSome_iff_exists.mp ho
    cases o' with
    | temp t' =>
      obtain ⟨x', hx'⟩ := Option.isSome_iff_exists.mp ho'
      simp only [operandName, hx, hx', String.append_right_inj] at heq
      rw [h.temps_inj t t' x x' hx hx' heq]
    | buffer b =>
      obtain ⟨x', hx'⟩ := Option.isSome_iff_exists.mp ho'
      simp only [operandName, hx, hx'] at heq
      exact absurd heq (hsigil _ _)
  | buffer b =>
    obtain ⟨x, hx⟩ := Option.isSome_iff_exists.mp ho
    cases o' with
    | temp t =>
      obtain ⟨x', hx'⟩ := Option.isSome_iff_exists.mp ho'
      simp only [operandName, hx, hx'] at heq
      exact absurd heq.symm (hsigil _ _)
    | buffer b' =>
      obtain ⟨x', hx'⟩ := Option.isSome_iff_exists.mp ho'
      simp only [operandName, hx, hx', String.append_right_inj] at heq
      have hb : (f.buffers.map (·.name))[b]? = some x.name := by
        rw [List.getElem?_map]
        exact congrArg (Option.map _) hx
      have hb' : (f.buffers.map (·.name))[b']? = some x.name := by
        rw [List.getElem?_map, heq]
        exact congrArg (Option.map _) hx'
      have := (idxOf?_of_nodup h.buffers_nodup hb).symm.trans (idxOf?_of_nodup h.buffers_nodup hb')
      rw [Option.some.inj this]

def written (f : Func) (r : Region) : List String := r.operands.map f.operandName

theorem Printable.nodup_written (h : f.Printable) (hr : f.region? id = some r) : (f.written r).Nodup :=
  (h.legible.region id r hr).operands.map_on fun o ho o' ho' heq =>
    operandName_inj h.legible (h.closed id r o hr ho) (h.closed id r o' hr ho') heq

end Func

theorem reads_range (r : Int × Int) : Reads range (rangeTokens r) never (· = r) := by
  refine (reads_int r.1).bind (fun l hl => ?_) clear_never
  refine (reads_symbol .colon).bind (fun _ _ => ?_) clear_never
  refine (reads_int r.2).last fun u hu => ?_
  rw [hl, hu]

theorem ofRanges_ranges {b : Box} {rank : Nat} (h : b.Ranked rank) : Box.ofRanges b.ranges = b := by
  obtain ⟨lb, ub⟩ := b
  have hlen : lb.length = ub.length := h.lb.trans h.ub.symm
  simp only [Box.ofRanges, Box.ranges, Box.mk.injEq]
  exact ⟨List.map_fst_zip (Nat.le_of_eq hlen), List.map_snd_zip (Nat.le_of_eq hlen.symm)⟩

theorem Box.Declarable.reads {b : Box} {rank : Nat} (h : b.Declarable rank) (hpos : 0 < rank) :
    Reads box b.tokens never (BoxDecl.Denotes rank · b) := by
  have hranked := Box.ranked_of_wellFormed h.wellFormed
  unfold Box.tokens
  split
  · rename_i hempty
    refine Reads.located (reads_peek ?_)
    rw [if_pos rfl]
    refine (reads_keyword .empty).last fun _ _ s => ?_
    rw [h.canonical hempty, hranked.rank_eq]
    rfl
  · rename_i hempty
    have hlen : b.ranges.length = rank := by
      rw [Box.ranges, List.length_zip, hranked.lb, hranked.ub, Nat.min_self]
    have hne : b.ranges ≠ [] := by
      rintro hnil
      rw [hnil] at hlen
      exact absurd hlen.symm (by simpa using hpos.ne')
    refine Reads.located (reads_peek ?_)
    rw [if_neg (by simp)]
    refine ((reads_separated hne (fun r _ => reads_range r) rfl).between .lbracket rfl).last
      fun rs hrs s => ?_
    cases List.forall₂_eq_eq_eq ▸ hrs
    refine ⟨hlen, ?_, ?_⟩
    · rw [ofRanges_ranges hranked]
      exact h.wellFormed
    · rw [ofRanges_ranges hranked, h.canonical.canonical_eq]

theorem Shape.Declarable.reads_orNone {s : Shape} {rank : Nat} (h : s.Declarable rank) (hpos : 0 < rank) :
    Reads boxOrNone (s.tokens []) isBoxStart (s.DenotedBy rank) := by
  cases s with
  | unknown =>
    refine reads_peek_nil fun t ht => ?_
    rw [if_neg (Bool.eq_false_iff.mp ht)]
    exact reads_pure ⟨none, .none, rfl⟩
  | known b =>
    have hbox := ((h b rfl).reads hpos).map (g := some) (Q := (Shape.known b).DenotedBy rank)
      fun d hd => ⟨some b, .some hd, rfl⟩
    have hstart : ∃ t ts, b.tokens = t :: ts ∧ isBoxStart t = true := by
      unfold Box.tokens
      split
      · exact ⟨_, _, rfl, rfl⟩
      · exact ⟨_, _, rfl, rfl⟩
    obtain ⟨t, ts, hts, ht⟩ := hstart
    rw [hts] at hbox
    rw [Shape.tokens, List.nil_append, hts]
    refine reads_peek ?_
    rw [Option.any_some, if_pos ht]
    exact hbox.of_never

theorem Shape.Declarable.reads_behind {s : Shape} {rank : Nat} (h : s.Declarable rank) (hpos : 0 < rank)
    (t : Token) :
    Reads (behind t box) (s.tokens [t]) (· = t) (s.DenotedBy rank) := by
  cases s with
  | unknown => exact (reads_behind_none t box).mono (fun _ h => h) fun d hd => ⟨none, hd ▸ .none, rfl⟩
  | known b =>
    refine (Reading.reads_behind ((h b rfl).reads hpos)).mono (fun _ h => by cases h) ?_
    rintro _ ⟨d, rfl, hd⟩
    exact ⟨some b, .some hd, rfl⟩

theorem Offset.reads {o : Offset} {rank : Nat} (hlen : o.length = rank) (h : o.inRange = true) :
    Reads Reading.offset o.tokens never (OffsetDecl.Denotes rank · o) := by
  have hvalues : Reads (separatedOrNone isInt int) (commaTokens (o.map fun z => [.int z]))
      (fun t => isInt t || t = .symbol .comma || never t) (List.Forall₂ (· = ·) · o) :=
    reads_separatedOrNone (fun z _ => reads_int z) rfl fun _ _ => rfl
  refine Reads.located ((hvalues.between .lbracket rfl).last fun zs hzs s => ⟨?_, hlen, h⟩)
  exact List.forall₂_eq_eq_eq ▸ hzs

def OperandDecl.Names (f : Func) : OperandDecl → Operand → Prop
  | .temp n, .temp t => ∃ x, f.temp? t = some x ∧ n.text = x.name
  | .buffer n, .buffer b => ∃ x, f.buffer? b = some x ∧ n.text = x.name
  | _, _ => False

theorem OperandDecl.Names.text_eq {f : Func} {d : OperandDecl} {o : Operand} (h : d.Names f o) :
    d.text = f.operandName o := by
  cases d with
  | temp n =>
    cases o with
    | temp t =>
      obtain ⟨x, hx, hn⟩ := h
      simp [OperandDecl.text, Func.operandName, hx, hn]
    | buffer b => cases h
  | buffer n =>
    cases o with
    | temp t => cases h
    | buffer b =>
      obtain ⟨x, hx, hn⟩ := h
      simp [OperandDecl.text, Func.operandName, hx, hn]

theorem reads_operand {f : Func} {o : Operand} (h : f.operandLive o = true) :
    Reads operand [f.operandToken o] never (OperandDecl.Names f · o) := by
  cases o with
  | temp t =>
    obtain ⟨x, hx⟩ := Option.isSome_iff_exists.mp h
    exact reads_select fun s => ⟨.temp ⟨_, s⟩, rfl, x, hx, by simp [hx]⟩
  | buffer b =>
    obtain ⟨x, hx⟩ := Option.isSome_iff_exists.mp h
    exact reads_select fun s => ⟨.buffer ⟨_, s⟩, rfl, x, hx, by simp [hx]⟩

theorem reads_values (vs : List ValueId) :
    Reads (separatedOrNone isLocal localName) (commaTokens (vs.map fun v => [valueToken v]))
      (fun t => isLocal t || t = .symbol .comma || never t)
        (List.Forall₂ (fun n v => n.text = natText v) · vs) :=
  reads_separatedOrNone (fun v _ => reads_localName (natText v)) rfl fun _ _ => rfl

theorem forall₂_idxOf?_valueNames {ns : List Name} {vs : List ValueId} {n : Nat}
    (h : List.Forall₂ (fun n v => n.text = natText v) ns vs) (hlt : ∀ v ∈ vs, v < n) :
    List.Forall₂ (fun (x : Name) v => (valueNames n).idxOf? x.text = some v) ns vs := by
  induction h with
  | nil => exact .nil
  | cons hx _ ih =>
    rw [List.forall_mem_cons] at hlt
    exact .cons (by rw [hx, idxOf?_valueNames hlt.1]) (ih hlt.2)

theorem reads_furtherOperands_nil : Reads furtherOperands [] (· = .symbol .comma) (· = []) := by
  intro ls rest hls hrest
  cases List.map_eq_nil_iff.mp hls
  refine ⟨[], ?_, rfl⟩
  rw [List.nil_append]
  unfold furtherOperands moreOperands
  split
  · simp at hrest
  · rfl

theorem reads_furtherOperands_single (n : String) :
    Reads furtherOperands [.symbol .comma, .localName n] (· = .symbol .comma) fun ns => ∃ x, ns = [x] ∧
      x.text = n := by
  intro ls rest hls hrest
  obtain ⟨⟨_, s⟩, ls, rfl, rfl, htail⟩ := List.map_eq_cons_iff.mp hls
  obtain ⟨⟨_, s'⟩, ls, rfl, rfl, hnil⟩ := List.map_eq_cons_iff.mp htail
  cases List.map_eq_nil_iff.mp hnil
  obtain ⟨_, hmore, rfl⟩ := reads_furtherOperands_nil [] rest rfl hrest
  have hmore : moreOperands rest = ([], rest) := Except.ok.inj hmore
  refine ⟨[⟨n, s'⟩], ?_, _, rfl, rfl⟩
  simp [furtherOperands, moreOperands, hmore]

theorem ofMnemonic?_unary (g : UnaryOp) : UnaryOp.ofMnemonic? g.mnemonic = some g := by cases g <;> decide

theorem ofMnemonic?_binary (g : BinaryOp) :
    UnaryOp.ofMnemonic? g.mnemonic = none ∧ BinaryOp.ofMnemonic? g.mnemonic = some g := by
  cases g <;> decide

theorem applied_unary {g : UnaryOp} {m : Name} (hm : m.text = g.mnemonic) (a : Name) :
    OpDecl.applied m [a] = .ok (.unary g a) := by
  simp [OpDecl.applied, hm, ofMnemonic?_unary]

theorem applied_binary {g : BinaryOp} {m : Name} (hm : m.text = g.mnemonic) (a b : Name) :
    OpDecl.applied m [a, b] = .ok (.binary g a b) := by
  simp [OpDecl.applied, hm, ofMnemonic?_binary]

theorem reads_unary (g : UnaryOp) {rank v n : Nat} {operands : List String} (hv : v < n) :
    Reads arithmetic [.ident g.mnemonic, valueToken v] (· = .symbol .comma)
      (fun x => x.Denotes rank operands (valueNames n) (.unary g v)) := by
  refine (reads_ident g.mnemonic).bind (fun m hm => ?_) clear_never
  refine (reads_localName (natText v)).bind (fun a ha => ?_) clear_never
  refine reads_furtherOperands_nil.bind (fun more hmore => ?_) fun _ h => h
  subst hmore
  refine reads_lift (applied_unary hm a) ?_
  exact ⟨rfl, by rw [ha, idxOf?_valueNames hv]⟩

theorem reads_binary (g : BinaryOp) {rank u v n : Nat} {operands : List String} (hu : u < n)
    (hv : v < n) :
    Reads arithmetic [.ident g.mnemonic, valueToken u, .symbol .comma, valueToken v] (· = .symbol .comma)
      (fun x => x.Denotes rank operands (valueNames n) (.binary g u v)) := by
  refine (reads_ident g.mnemonic).bind (fun m hm => ?_) clear_never
  refine (reads_localName (natText u)).bind (fun a ha => ?_) clear_never
  refine (reads_furtherOperands_single (natText v)).bind (fun more hmore => ?_) fun _ h => h
  obtain ⟨b, rfl, hb⟩ := hmore
  refine reads_lift (applied_binary hm a b) ?_
  exact ⟨rfl, by rw [ha, idxOf?_valueNames hu], by rw [hb, idxOf?_valueNames hv]⟩

namespace Func

variable {f : Func} {id : RegionId} {r : Region} {b : Body}

theorem Printable.idxOf?_written {slot : Nat} {o : Operand} (h : f.Printable) (hr : f.region? id = some r)
    (ho : r.operands[slot]? = some o) : (f.written r).idxOf? (f.operandName o) = some slot := by
  refine idxOf?_of_nodup (h.nodup_written hr) ?_
  rw [written, List.getElem?_map, ho]
  rfl

theorem Printable.reads_op {i : Nat} {op : Op} (h : f.Printable) (hr : f.region? id = some r)
    (hb : b ∈ r.bodies)
    (hop : b.ops[i]? = some op) :
    Reads operation (f.opTokens r op) (· = .symbol .comma)
      (fun x => x.Denotes f.rank (f.written r) (valueNames i) op) := by
  have hmem := List.mem_of_getElem? hop
  have hbody := (h.sound.fits id r hr).mem_bodies hb
  have hfits := hbody.ops op hmem
  have hargs := hbody.args i op hop
  have hrange := h.inRange id r b op hr hb hmem
  cases op with
  | access slot o =>
    obtain ⟨x, hx, hlive⟩ := h.sound.reads id r b slot o hr hb hmem
    have haccess : Reads access (.keyword .access :: ([f.operandToken x] ++ Offset.tokens o)) never
        (fun d => d.Denotes f.rank (f.written r) (valueNames i) (.access slot o)) := by
      refine (reads_keyword .access).bind (fun _ _ => ?_) clear_never
      refine (reads_operand hlive).bind (fun d hd => ?_) clear_never
      refine (Offset.reads hfits.1 hrange).last fun off hoff => ?_
      exact ⟨by rw [hd.text_eq, h.idxOf?_written hr hx], hoff⟩
    rw [opTokens, hx]
    exact reads_peek haccess.whole.of_never
  | index dim o =>
    have hindex : Reads index (.keyword .index :: .int dim :: Offset.tokens o) never
        (fun d => d.Denotes f.rank (f.written r) (valueNames i) (.index dim o)) := by
      refine (reads_keyword .index).bind (fun _ _ => ?_) clear_never
      refine (reads_locatedInt dim).bind (fun d hd => ?_) clear_never
      refine (Offset.reads hfits.2 hrange).last fun off hoff => ?_
      exact ⟨hd, hfits.1, hoff⟩
    exact reads_peek hindex.whole.of_never
  | constant c =>
    have hconstant : Reads constant [.keyword .const, .float c] never
        (fun d => d.Denotes f.rank (f.written r) (valueNames i) (.constant c)) := by
      refine (reads_keyword .const).bind (fun _ _ => ?_) clear_never
      have hliteral : Reads literal [.float c] never (·.value = c) :=
        reads_select fun _ => ⟨.float c, rfl, rfl⟩
      exact hliteral.last fun _ hv => hv
    exact reads_peek hconstant.whole.of_never
  | unary g a => exact reads_peek (reads_unary g (hargs a (by simp [Op.args])))
  | binary g l rhs =>
    exact reads_peek (reads_binary g (hargs l (by simp [Op.args])) (hargs rhs (by simp [Op.args])))
  | call callee as isPure =>
    have himpure : Reads (behind (.keyword .impure) (pure ())) (if isPure then [] else [.keyword .impure])
        (· = .keyword .impure) (fun x => x.isNone = isPure) := by
      cases isPure
      · refine (reads_behind (reads_pure (Q := fun _ => True) trivial)).mono (fun _ h => h) ?_
        rintro _ ⟨x, rfl, _⟩
        rfl
      · exact (reads_behind_none _ _).mono (fun _ h => h) fun x hx => by rw [hx]; rfl
    have hcall : Reads call (f.opTokens r (.call callee as isPure)) never
        (fun d => d.Denotes f.rank (f.written r) (valueNames i) (.call callee as isPure)) := by
      refine (reads_keyword .call).bind (fun _ _ => ?_) clear_never
      refine himpure.bind (fun x hx => ?_) rfl
      refine (reads_ident callee).bind (fun c hc => ?_) clear_never
      refine ((reads_values as).between .lparen rfl).last fun ns hns => ?_
      exact ⟨hc, forall₂_idxOf?_valueNames hns hargs, hx⟩
    exact reads_peek hcall.whole.of_never

theorem Printable.reads_statements (h : f.Printable) (hr : f.region? id = some r) (hb : b ∈ r.bodies) :
    Reads (bounded (many isLocal statement)) (b.ops.zipIdx.flatMap (f.statementTokens r))
      (fun t => isLocal t || t = .symbol .comma)
      (List.Forall₂ (fun s p => s.result.text = natText p.2 ∧
        s.op.Denotes f.rank (f.written r) (valueNames p.2) p.1) · b.ops.zipIdx) := by
  refine reads_bounded_many (fun p hp => ?_) (fun _ _ => rfl) ?_
  · refine Reads.located ((reads_localName (natText p.2)).bind (fun n hn => ?_) clear_never)
    refine (reads_symbol .equals).bind (fun _ _ => ?_) clear_never
    have hop : b.ops[p.2]? = some p.1 := by simpa using List.mem_zipIdx_iff_getElem?.mp hp
    exact (h.reads_op hr hb hop).last fun x hx _ => ⟨hn, hx⟩
  · intro t ht
    match t, ht with
    | .localName _, _ => rfl

theorem statements_eq {rank : Nat} (subject : Subject) {operands : List String} {ops : List Op}
    {ss : List StatementDecl} {n : Nat}
    (h : List.Forall₂ (fun (s : StatementDecl) (p : Op × Nat) => s.result.text = natText p.2 ∧
      s.op.Denotes rank operands (valueNames p.2) p.1) ss (ops.zipIdx n)) :
    Resolution.statements rank subject operands (valueNames n) ss =
      pure (ops, valueNames (n + ops.length)) := by
  induction ops generalizing ss n with
  | nil =>
    cases h
    rfl
  | cons op ops ih =>
    rw [List.zipIdx_cons] at h
    obtain ⟨s, ss, ⟨hname, hop⟩, hrest, rfl⟩ := List.forall₂_cons_right_iff.mp h
    refine Resolution.statements_cons_eq_pure_iff.mpr ⟨op, hop, ?_, ops, ?_, rfl⟩
    · rw [hname, natText_mem_valueNames]
      exact Nat.lt_irrefl n
    · rw [hname, ← valueNames_succ, ih hrest, List.length_cons, Nat.add_right_comm, Nat.add_assoc]

theorem reads_unrolling (axis factor : Int) :
    Reads unrolling [.int axis, .keyword .byFactor, .int factor] never (· = (axis, factor)) := by
  refine (reads_int axis).bind (fun z hz => ?_) clear_never
  refine (reads_keyword .byFactor).bind (fun _ _ => ?_) clear_never
  refine (reads_int factor).last fun k hk => ?_
  rw [hz, hk]

theorem reads_returned (ret : Return) :
    Reads returned (returnTokens ret) (fun t => isLocal t || t = .symbol .comma || t = .keyword .unroll)
      (fun d => List.Forall₂ (fun n v => n.text = natText v) d.values ret.values ∧
        d.unroll = ret.unroll.map fun u => ((u.axis : Int), (u.factor : Int))) := by
  obtain ⟨values, unroll⟩ := ret
  have hunroll : Reads (behind (.keyword .unroll) unrolling) (unrollTokens unroll) (· = .keyword .unroll)
      (· = unroll.map fun u => ((u.axis : Int), (u.factor : Int))) := by
    cases unroll with
    | none => exact (reads_behind_none _ _).mono (fun _ h => h) fun x hx => by rw [hx]; rfl
    | some u =>
      refine (reads_behind (reads_unrolling u.axis u.factor)).mono (fun _ h => by cases h) ?_
      rintro _ ⟨x, rfl, rfl⟩
      rfl
  refine Reads.located ((reads_keyword .returns).bind (fun _ _ => ?_) clear_never)
  refine (reads_values values).bind (fun ns hns => ?_) ?_
  · exact (hunroll.last fun u hu _ => ⟨hns, hu⟩).mono (fun t ht => by simp [ht]) fun _ h => h
  · cases unroll with
    | none =>
      intro t ht
      simp only [never, Bool.or_false] at ht
      simp only [ht, Bool.true_or]
    | some u => rfl

theorem Printable.reads_body (h : f.Printable) (hr : f.region? id = some r) (hb : b ∈ r.bodies)
    (harity : b.ret.values.length = r.results.length * b.ret.factor) :
    Reads body (f.bodyTokens r b) never
      (fun d => ∀ subject, Resolution.body f.rank subject (f.written r) r.results.length d = pure b) := by
  have hfits := (h.sound.fits id r hr).mem_bodies hb
  refine Reads.located ((reads_symbol .lbrace).bind (fun _ _ => ?_) clear_never)
  refine (h.reads_statements hr hb).bind (fun ss hss => ?_) rfl
  refine (reads_returned b.ret).bind (fun ret hret => ?_) rfl
  refine (reads_symbol .rbrace).last fun _ _ _ subject => ?_
  refine Resolution.body_eq_pure_iff.mpr ⟨valueNames b.ops.length, ?_, ?_, ?_, harity⟩
  · have := statements_eq subject hss
    rwa [Nat.zero_add] at this
  · exact forall₂_idxOf?_valueNames hret.1 hfits.ret
  · refine Resolution.unroll_eq_pure_iff.mpr ⟨hret.2, fun u hu => ?_⟩
    have hu := h.unroll_of_mem_bodies hr hb hu
    exact ⟨(h.unroll hr hu).1, ((h.sound.fits id r hr).unroll u hu).2, (h.unroll hr hu).2⟩

theorem Printable.reads_main (h : f.Printable) (hr : f.region? id = some r) :
    Reads body (f.bodyTokens r r.body) never
      (fun d =>
        ∀ subject, Resolution.body f.rank subject (f.written r) r.results.length d = pure r.body) :=
  h.reads_body hr (by simp [Region.bodies]) (h.sound.fits id r hr).arity

theorem Printable.reads_epilogue (h : f.Printable) (hr : f.region? id = some r) :
    Reads (behind (.keyword .epilogue) body) (f.epilogueTokens r r.epilogue) (· = .keyword .epilogue)
      (fun d => ∀ subject,
        Resolution.epilogue f.rank subject (f.written r) r.results.length r.body d =
          pure r.epilogue) := by
  have hfits := h.sound.fits id r hr
  cases he : r.epilogue with
  | none => exact (reads_behind_none _ _).mono (fun _ h => h) fun d hd _ => by rw [hd]; rfl
  | some e =>
    obtain ⟨_, hunroll, harity, hsome⟩ := hfits.epilogue e he
    have hbody := h.reads_body hr (b := e) (by simp [Region.bodies, he]) (by rw [harity, Return.factor,
      hunroll, Nat.mul_one])
    refine (reads_behind hbody).mono (fun _ h => by cases h) ?_
    rintro _ ⟨d, rfl, hd⟩ subject
    exact Resolution.epilogue_eq_pure_iff.mpr (.some ⟨hsome, hd subject, hunroll⟩)

end Func

/-- A declaration of a region of a function, whose names stand for temporaries and buffers of it. -/
structure RegionDecl.Denotes (f : Func) (d : RegionDecl) (r : Region) : Prop where
  name : d.name.text = r.name
  results : (r.results.filterMap f.temp?).map (·.name) = d.results.map (·.text)
  operands : List.Forall₂ (OperandDecl.Names f) d.operands r.operands
  types : List.Forall₂ (TypeDecl.Denotes f.rank) d.types (r.results.filterMap f.temp?)
  domain : match d.domain with
    | some b => r.shape.DenotedBy f.rank (some b)
    | none => r.shape = f.resultShape r
  body : ∀ subject, Resolution.body f.rank subject (f.written r) r.results.length d.body = pure r.body
  epilogue :
  ∀ subject, Resolution.epilogue f.rank subject (f.written r) r.results.length r.body d.epilogue =
    pure r.epilogue

structure OutputDecl.Denotes (f : Func) (d : OutputDecl) (o : OutputMark) : Prop where
  temp : ∃ x, f.temp? o.temp = some x ∧ d.temp.text = x.name
  domain : d.domain.Denotes f.rank o.domain

namespace Func

variable {f : Func} {id : RegionId} {r : Region} {b : Body}

theorem reads_tempName {t : TempId} {x : Temporary} (hx : f.temp? t = some x) :
    Reads localName [f.tempToken t] never (·.text = x.name) := by
  rw [tempToken, hx]
  exact reads_localName x.name

theorem Printable.reads_results (h : f.Printable) (hr : f.region? id = some r) :
    Reads (separated localName) (commaTokens (r.results.map fun t => [f.tempToken t]))
      (fun t => t = .symbol .comma || never t)
      (fun ns => (r.results.filterMap f.temp?).map (·.name) = ns.map (·.text)) := by
  have hnames : Reads (separated localName) (commaTokens (r.results.map fun t => [f.tempToken t]))
      (fun t => t = .symbol .comma || never t)
      (List.Forall₂ (fun n t => ∃ x, f.temp? t = some x ∧ n.text = x.name) · r.results) := by
    refine reads_separated (h.legible.region id r hr).results (fun t ht => ?_) rfl
    obtain ⟨x, hx⟩ := h.sound.exists_temp hr ht
    exact (reads_tempName hx).mono (fun _ h => h) fun n hn => ⟨x, hx, hn⟩
  refine hnames.mono (fun _ h => h) fun ns hns => ?_
  generalize r.results = ts at hns
  induction hns with
  | nil => rfl
  | cons hn _ ih =>
    obtain ⟨x, hx, hn⟩ := hn
    rw [List.filterMap_cons_some hx, List.map_cons, List.map_cons, hn, ih]

theorem Printable.reads_types (h : f.Printable) (hr : f.region? id = some r) :
    Reads (separated resultType) (commaTokens ((r.results.filterMap f.temp?).map typeTokens))
      (fun t => t = .symbol .comma || isBoxStart t)
      (List.Forall₂ (TypeDecl.Denotes f.rank) · (r.results.filterMap f.temp?)) := by
  refine reads_separated ?_ (fun x hx => ?_) rfl
  · obtain ⟨t, ht⟩ := List.exists_mem_of_ne_nil _ (h.legible.region id r hr).results
    obtain ⟨x, hx⟩ := h.sound.exists_temp hr ht
    exact List.ne_nil_of_mem (List.mem_filterMap.mpr ⟨t, ht, hx⟩)
  · obtain ⟨t, _, ht⟩ := List.mem_filterMap.mp hx
    refine (reads_ident x.elem.name).bind (fun n hn => ?_) clear_never
    refine ((h.boxed.temp t x ht).reads_orNone h.legible.rank_pos).last fun d hd => ⟨?_, hd⟩
    rw [hn]
    cases x.elem <;> rfl

theorem Printable.reads_over (h : f.Printable) (hr : f.region? id = some r) :
    Reads (behind (.keyword .overBox) box) (f.overTokens r) (· = .keyword .overBox)
      (fun d => match d with
        | some b => r.shape.DenotedBy f.rank (some b)
        | none => r.shape = f.resultShape r) := by
  unfold overTokens
  split
  · rename_i heq
    exact (reads_behind_none _ _).mono (fun _ h => h) fun d hd => by rw [hd]; exact heq.symm
  · refine ((h.boxed.region id r hr).reads_behind h.legible.rank_pos _).mono (fun _ h => h) fun d hd => ?_
    cases d with
    | some b => exact hd
    | none =>
      obtain ⟨_, hrel, hs⟩ := hd
      cases hrel
      rw [h.boxed.given id r hr hs.symm, ← hs]
      rfl

theorem Printable.reads_region (h : f.Printable) (hr : f.region? id = some r) :
    Reads region (f.regionTokens r) (· = .keyword .epilogue) (RegionDecl.Denotes f · r) := by
  have hoperands :
      Reads (separatedOrNone isOperand operand) (commaTokens (r.operands.map fun o => [f.operandToken o]))
      (fun t => isOperand t || t = .symbol .comma || never t)
        (List.Forall₂ (OperandDecl.Names f) · r.operands) := by
    refine reads_separatedOrNone (fun o ho => reads_operand (h.closed id r o hr ho)) rfl fun o _ => ?_
    cases o <;> rfl
  refine Reads.located ((h.reads_results hr).bind (fun results hresults => ?_) rfl)
  refine (reads_symbol .equals).bind (fun _ _ => ?_) clear_never
  refine (reads_keyword .apply).bind (fun _ _ => ?_) clear_never
  refine (reads_ident r.name).bind (fun name hname => ?_) clear_never
  refine hoperands.between_bind .lparen rfl fun operands hoperands => ?_
  refine (reads_symbol .arrow).bind (fun _ _ => ?_) clear_never
  refine (h.reads_types hr).bind (fun types htypes => ?_) ?_
  · refine (h.reads_over hr).bind (fun domain hdomain => ?_) rfl
    refine (h.reads_main hr).bind (fun main hmain => ?_) clear_never
    exact (h.reads_epilogue hr).last fun rest hrest _ =>
      ⟨hname, hresults, hoperands, htypes, hdomain, hmain, hrest⟩
  · unfold overTokens
    split
    · rfl
    · cases r.shape <;> rfl

theorem Printable.reads_buffer {x : Buffer} (h : f.Printable) (hx : x ∈ f.buffers) :
    Reads buffer (bufferTokens x) (fun t => t = .keyword .domain || t = .keyword .required)
      (BufferDecl.Denotes f.rank · x) := by
  have hdomain : (Shape.ofOption x.domain).Declarable f.rank := by
    intro d hd
    cases hd' : x.domain with
    | none => rw [hd'] at hd; cases hd
    | some d' =>
      rw [hd'] at hd
      cases hd
      exact h.boxed.domain x hx d hd'
  have hname : Reads globalName [.globalName x.name] never (·.text = x.name) :=
    reads_select fun s => ⟨⟨_, s⟩, rfl, rfl⟩
  refine Reads.located ((reads_keyword .buffer).bind (fun _ _ => ?_) clear_never)
  refine hname.bind (fun name hname => ?_) clear_never
  refine (reads_symbol .colon).bind (fun _ _ => ?_) clear_never
  refine (reads_ident x.elem.name).bind (fun elem helem => ?_) clear_never
  refine (hdomain.reads_behind h.legible.rank_pos _).bind (fun domain hdomain => ?_) ?_
  · refine (((h.boxed.required x hx).reads_behind h.legible.rank_pos _).last
      fun required hrequired _ => ?_).mono (fun t ht => by simp [ht]) fun _ h => h
    refine ⟨hname.symm, ?_, ?_, hrequired⟩
    · rw [helem]
      cases x.elem <;> rfl
    · obtain ⟨b, hb, heq⟩ := hdomain
      cases b <;> cases hd' : x.domain <;> rw [hd'] at heq <;> cases heq <;> exact hb
  · cases x.required with
    | unknown => exact fun t ht => by simp [ht]
    | known b => rfl

theorem Printable.reads_output {o : OutputMark} (h : f.Printable) (ho : o ∈ f.outputs) :
    Reads output (f.outputTokens o) never (OutputDecl.Denotes f · o) := by
  obtain ⟨x, hx⟩ := (h.sound.outputs o ho).1
  refine Reads.located ((reads_keyword .output).bind (fun _ _ => ?_) clear_never)
  refine (reads_tempName hx).bind (fun n hn => ?_) clear_never
  exact ((h.boxed.output o ho).reads h.legible.rank_pos).last fun d hd _ => ⟨⟨x, hx, hn⟩, hd⟩

end Func

/-- The part of a function that an item declares. -/
def ItemDecl.Denotes (f : Func) : ItemDecl → Item → Prop
  | .buffer d, .buffer b => d.Denotes f.rank b
  | .region d, .region r => d.Denotes f r
  | .output d, .output o => d.Denotes f o
  | _, _ => False

structure FuncDecl.Denotes (d : FuncDecl) (f : Func) : Prop where
  name : d.name.text = f.name
  rank : d.rank = f.rank
  items : List.Forall₂ (ItemDecl.Denotes f) d.items f.items

namespace Func

variable {f : Func} {id : RegionId} {r : Region} {b : Body}

/-- The words that may stand behind an item, but start none. -/
def isItemTail (t : Token) : Bool :=
  t = .keyword .domain || t = .keyword .required || t = .keyword .epilogue

theorem regionTokens_eq_cons (h : r.results ≠ []) : ∃ n ts, f.regionTokens r = .localName n :: ts := by
  cases hr : r.results with
  | nil => exact absurd hr h
  | cons t ts =>
    rw [regionTokens, hr, List.map_cons, commaTokens_cons]
    exact ⟨_, _, rfl⟩

theorem Printable.reads_item {i : Item} (h : f.Printable) (hi : i ∈ f.items) :
    Reads item (f.itemTokens i) isItemTail (ItemDecl.Denotes f · i) := by
  simp only [items, List.mem_append, List.mem_map] at hi
  rcases hi with ⟨x, hx, rfl⟩ | ⟨⟨id, r⟩, hr, rfl⟩ | ⟨o, ho, rfl⟩
  · refine reads_peek (((h.reads_buffer hx).map fun _ hd => hd).mono (fun t ht => ?_) fun _ h => h)
    simp only [isItemTail, ht, Bool.true_or]
  · have hr := mem_liveRegions.mp hr
    have hregion : Reads (ItemDecl.region <$> region) (f.regionTokens r) (· = .keyword .epilogue)
        (ItemDecl.Denotes f · (.region r)) := (h.reads_region hr).map fun _ hd => hd
    obtain ⟨n, ts, hts⟩ := f.regionTokens_eq_cons (h.legible.region id r hr).results
    rw [hts] at hregion
    rw [itemTokens, hts]
    refine reads_peek (hregion.mono (fun t ht => ?_) fun _ h => h)
    simp only [isItemTail, ht, Bool.or_true]
  · exact reads_peek ((h.reads_output ho).map fun _ hd => hd).of_never

theorem Printable.reads_items (h : f.Printable) :
    Reads (bounded (many isItemStart item)) (f.items.flatMap f.itemTokens)
      (fun t => isItemStart t || isItemTail t)
      (List.Forall₂ (ItemDecl.Denotes f) · f.items) := by
  refine reads_bounded_many (fun i hi => h.reads_item hi) (fun i hi => ?_) fun t ht => ?_
  · simp only [items, List.mem_append, List.mem_map] at hi
    rcases hi with ⟨x, hx, rfl⟩ | ⟨⟨id, r⟩, hr, rfl⟩ | ⟨o, ho, rfl⟩
    · rfl
    · obtain ⟨n, ts, hts⟩ :=
        f.regionTokens_eq_cons (h.legible.region id r (mem_liveRegions.mp hr)).results
      rw [itemTokens, hts]
      rfl
    · rfl
  · simp only [isItemStart, Bool.or_eq_true, decide_eq_true_eq] at ht
    rcases ht with (rfl | rfl) | ht
    · rfl
    · rfl
    · cases t with
      | localName n => rfl
      | _ => cases ht

theorem Printable.reads_func (h : f.Printable) : Reads func f.tokens never (FuncDecl.Denotes · f) := by
  refine Reads.located ((reads_keyword .func).bind (fun _ _ => ?_) clear_never)
  refine (reads_ident f.name).bind (fun name hname => ?_) clear_never
  refine (reads_keyword .rank).bind (fun _ _ => ?_) clear_never
  refine (reads_locatedInt f.rank).bind (fun rank hrank => ?_) clear_never
  exact (h.reads_items.between .lbrace rfl).last fun items hitems _ => ⟨hname, hrank, hitems⟩

end Func

/-- The tokens of a program make up declarations of its functions. -/
theorem Program.reads_functions {p : Program} (h : ∀ f ∈ p.functions, f.Printable) :
    Reads Reading.functions p.tokens (fun t => t = .keyword .func || never t)
      (List.Forall₂ (fun d f => f ∈ p.functions ∧ d.Denotes f) · p.functions) :=
  reads_bounded_many (fun f hf => (h f hf).reads_func.mono (fun _ h => h) fun _ hd => ⟨hf, hd⟩)
    (fun _ _ => rfl)
    fun _ _ => rfl

end Stencil
