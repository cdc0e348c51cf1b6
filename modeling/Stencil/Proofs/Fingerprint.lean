import Stencil.Proofs.Loading
import Stencil.Proofs.Unambiguous

/-! The text behind a fingerprint. Its fields stand between NULs, and every field is clear; since a
kind of entry has a fixed number of fields, and an empty place is followed by the next entry, the
text tells the structure. -/

set_option autoImplicit false

namespace Stencil

def Op.quieted : Op → Op
  | .constant c => .constant c.quieted
  | op => op

def Body.quieted (b : Body) : Body := { b with ops := b.ops.map Op.quieted }

def Region.quieted (r : Region) : Region :=
  { r with body := r.body.quieted, epilogue := r.epilogue.map Body.quieted }

/-- The function, with one NaN for all. -/
def Func.quieted (f : Func) : Func := { f with regions := f.regions.map (Option.map Region.quieted) }

theorem Scalar.text_quieted (x : Scalar) : x.quieted.text = x.text := by
  unfold quieted
  split
  · next h =>
    have hquiet : text ⟨0x7FF8000000000000⟩ = "NaN" := if_pos (by decide)
    rw [hquiet, text, if_pos h]
  · rfl

theorem Op.structureText_quieted (op : Op) : op.quieted.structureText = op.structureText := by
  cases op with
  | constant c => rw [quieted, structureText, c.text_quieted, structureText]
  | _ => rfl

theorem Body.structureText_quieted (b : Body) : b.quieted.structureText = b.structureText := by
  have hops : b.quieted.ops.map Op.structureText = b.ops.map Op.structureText := by
    rw [quieted, List.map_map]
    exact List.map_congr_left fun op _ => op.structureText_quieted
  rw [structureText, hops, structureText]
  rfl

theorem Region.structureText_quieted (r : Region) : r.quieted.structureText = r.structureText := by
  have hepilogue : optionStructure Body.structureText r.quieted.epilogue =
      optionStructure Body.structureText r.epilogue := by
    unfold quieted
    cases r.epilogue with
    | none => rfl
    | some e => exact congrArg (wrapped "Some") e.structureText_quieted
  rw [structureText, hepilogue, show r.quieted.body = r.body.quieted from rfl,
    r.body.structureText_quieted]
  rfl

theorem Func.structureText_quieted (f : Func) : f.quieted.structureText = f.structureText := by
  have hregions : f.quieted.regions.mapIdx (placeText Region.structureText) =
      f.regions.mapIdx (placeText Region.structureText) :=
    mapIdx_placeText_map Region.structureText_quieted f.regions
  rw [structureText, hregions]
  rfl

namespace Text

theorem clear_ints : Clear id intsStructure :=
  (clear_intText.bracketed begins_intText).comap id fun x y h => by simpa using h

theorem clear_offset : Clear id Offset.structureText := clear_ints.wrapped (by decide)

theorem clear_box : Clear id Box.structureText :=
  (clear_ints.record₂ clear_ints (by decide) (by decide) (by decide)).comap (fun b : Box => (b.lb, b.ub))
    fun x y h => by cases x; cases y; simpa using h

theorem clear_id {name : String} (h : Free name) : Clear id fun n => wrapped name (natText n) :=
  clear_natText.wrapped h

theorem clear_ids {name : String} (h : Free name) (hword : Begins name) :
    Clear id fun ns : List Nat => bracketed (ns.map fun n => wrapped name (natText n)) :=
  ((clear_id h).bracketed fun _ => begins_wrapped hword _).comap id fun x y h => by simpa using h

theorem clear_bool : Clear id boolStructure :=
  clear_word (by decide) (by decide)

theorem clear_elemTag : Clear id ElemType.tag :=
  clear_word (fun e => by cases e <;> decide) fun d e => by cases d <;> cases e <;> decide

theorem clear_unaryTag : Clear id UnaryOp.tag :=
  clear_word (fun e => by cases e <;> decide) fun d e => by cases d <;> cases e <;> decide

theorem clear_binaryTag : Clear id BinaryOp.tag :=
  clear_word (fun e => by cases e <;> decide) fun d e => by cases d <;> cases e <;> decide

def operandWord : Operand → String
  | .temp _ => "Temp"
  | .buffer _ => "Buffer"

theorem takeWhile_operand (o : Operand) (rest : List Char) :
    (o.structureText.toList ++ rest).takeWhile isWordChar = (operandWord o).toList := by
  cases o with
  | temp t => exact takeWhile_wrapped (by decide) _ rest
  | buffer b => exact takeWhile_wrapped (by decide) _ rest

theorem clear_operand : Clear id Operand.structureText where
  free o := by
    cases o with
    | temp t => exact ((clear_id (by decide)).wrapped (by decide)).free t
    | buffer b => exact ((clear_id (by decide)).wrapped (by decide)).free b
  reads {o o' rest rest'} hr hr' heq := by
    have hword : operandWord o = operandWord o' := by
      apply String.toList_injective
      rw [← takeWhile_operand o rest, heq, takeWhile_operand]
    cases o with
    | temp t =>
      cases o' with
      | temp t' =>
        have h :=
          ((clear_id (by decide : Free "TempId")).wrapped (by decide : Free "Temp")).reads hr hr' heq
        simpa using h
      | buffer b' => exact absurd hword (by simp [operandWord])
    | buffer b =>
      cases o' with
      | temp t' => exact absurd hword (by simp [operandWord])
      | buffer b' =>
        have h :=
          ((clear_id (by decide : Free "BufferId")).wrapped (by decide : Free "Buffer")).reads hr hr' heq
        simpa using h

def opWord : Op → String
  | .access _ _ => "Access"
  | .index _ _ => "Index"
  | .constant _ => "Constant"
  | .unary _ _ => "Unary"
  | .binary _ _ _ => "Binary"
  | .call _ _ _ => "Call"

theorem takeWhile_op (op : Op) (rest : List Char) :
    (op.structureText.toList ++ rest).takeWhile isWordChar = (opWord op).toList := by
  cases op with
  | access slot o => exact takeWhile_recordText (by decide) _ rest
  | index dim o => exact takeWhile_recordText (by decide) _ rest
  | constant c => exact takeWhile_wrapped (by decide) _ rest
  | unary g a => exact takeWhile_recordText (by decide) _ rest
  | binary g l r => exact takeWhile_recordText (by decide) _ rest
  | call callee as isPure => exact takeWhile_recordText (by decide) _ rest

theorem begins_op (op : Op) : Begins op.structureText :=
  begins_of_takeWhile (takeWhile_op op []) (by cases op <;> simp [opWord])

theorem clear_displaced {name label : String} (hname : Free name) (hlabel : Free label) :
    Clear id fun x : Nat × Offset =>
      recordText name [(label, natText x.1), ("offset", Offset.structureText x.2)] :=
  (clear_natText.record₂ clear_offset hname hlabel (by decide)).comap id fun x y h => by simpa using h

theorem clear_constant :
    Clear Scalar.quieted fun c => wrapped "Constant" c.text := clear_scalarText.wrapped (by decide)

theorem clear_unary : Clear id fun x : UnaryOp × ValueId =>
    recordText "Unary" [("op", x.1.tag), ("arg", valueIdStructure x.2)] :=
  (clear_unaryTag.record₂ (clear_id (by decide)) (by decide) (by decide) (by decide)).comap id
    fun x y h => by simpa using h

theorem clear_binary : Clear id fun x : BinaryOp × ValueId × ValueId =>
    recordText "Binary" [("op", x.1.tag), ("lhs", valueIdStructure x.2.1),
      ("rhs", valueIdStructure x.2.2)] :=
  (clear_binaryTag.record₃ (clear_id (by decide)) (clear_id (by decide)) (by decide) (by decide)
    (by decide)
    (by decide)).comap id fun x y h => by simpa using h

theorem clear_call : Clear id fun x : String × List ValueId × Bool =>
    recordText "Call" [("callee", quote x.1), ("args", bracketed (x.2.1.map valueIdStructure)),
      ("pure", boolStructure x.2.2)] :=
  (clear_quote.record₃ (clear_ids (by decide) (by decide)) clear_bool (by decide) (by decide) (by decide)
    (by decide)).comap id fun x y h => by simpa using h

theorem clear_op : Clear Op.quieted Op.structureText where
  free op := by
    cases op with
    | access slot o => exact (clear_displaced (by decide) (by decide)).free (slot, o)
    | index dim o => exact (clear_displaced (by decide) (by decide)).free (dim, o)
    | constant c => exact clear_constant.free c
    | unary g a => exact clear_unary.free (g, a)
    | binary g l r => exact clear_binary.free (g, l, r)
    | call callee as isPure => exact clear_call.free (callee, as, isPure)
  reads {op op' rest rest'} hr hr' heq := by
    have hword : opWord op = opWord op' := by
      apply String.toList_injective
      rw [← takeWhile_op op rest, heq, takeWhile_op]
    -- The words differ from kind to kind, and one kind is read as a record.
    cases op with
    | access slot o =>
      cases op' with
      | access slot' o' =>
        have h := (clear_displaced (by decide : Free "Access") (by decide : Free "operand")).reads
          (x := (slot, o)) (y := (slot', o')) hr hr' heq
        simpa [Op.quieted] using h
      | _ => exact absurd hword (by simp [opWord])
    | index dim o =>
      cases op' with
      | index dim' o' =>
        have h := (clear_displaced (by decide : Free "Index") (by decide : Free "dim")).reads
          (x := (dim, o)) (y := (dim', o')) hr hr' heq
        simpa [Op.quieted] using h
      | _ => exact absurd hword (by simp [opWord])
    | constant c =>
      cases op' with
      | constant c' =>
        have h := clear_constant.reads hr hr' heq
        simpa [Op.quieted] using h
      | _ => exact absurd hword (by simp [opWord])
    | unary g a =>
      cases op' with
      | unary g' a' =>
        have h := clear_unary.reads (x := (g, a)) (y := (g', a')) hr hr' heq
        simpa [Op.quieted] using h
      | _ => exact absurd hword (by simp [opWord])
    | binary g l r =>
      cases op' with
      | binary g' l' r' =>
        have h := clear_binary.reads (x := (g, l, r)) (y := (g', l', r')) hr hr' heq
        simpa [Op.quieted] using h
      | _ => exact absurd hword (by simp [opWord])
    | call callee as isPure =>
      cases op' with
      | call callee' as' isPure' =>
        have h := clear_call.reads (x := (callee, as, isPure)) (y := (callee', as', isPure')) hr hr' heq
        simpa [Op.quieted] using h
      | _ => exact absurd hword (by simp [opWord])

theorem clear_unroll : Clear id Unroll.structureText :=
  (clear_natText.record₂ clear_natText (by decide) (by decide) (by decide)).comap
    (fun u : Unroll => (u.axis, u.factor)) fun x y h => by cases x; cases y; simpa using h

theorem clear_return : Clear id Return.structureText :=
  ((clear_ids (by decide) (by decide)).record₂ clear_unroll.option (by decide) (by decide)
    (by decide)).comap
    (fun r : Return => (r.values, r.unroll)) fun x y h => by cases x; cases y; simpa using h

theorem clear_body : Clear Body.quieted Body.structureText :=
  ((clear_op.bracketed begins_op).record₂ clear_return (by decide) (by decide) (by decide)).comap
    (fun b : Body => (b.ops, b.ret)) fun x y h => by cases x; cases y; simpa [Body.quieted] using h

theorem begins_operand (o : Operand) : Begins o.structureText :=
  begins_of_takeWhile (takeWhile_operand o []) (by cases o <;> simp [operandWord])

theorem clear_operands : Clear id fun os : List Operand => bracketed (os.map Operand.structureText) :=
  (clear_operand.bracketed begins_operand).comap id fun x y h => by simpa using h

/-- Fields with a NUL in front of each. -/
def led (fields : List String) : List Char := fields.flatMap fun s => '\x00' :: s.toList

theorem led_fieldsText {fields : List String} (hne : fields ≠ []) :
    '\x00' :: (fieldsText fields).toList = led fields := by
  induction fields with
  | nil => exact absurd rfl hne
  | cons s fields ih =>
    cases fields with
    | nil => simp [led, fieldsText, joinWith]
    | cons s' fields =>
      have hstep : fieldsText (s :: s' :: fields) = s ++ nul ++ fieldsText (s' :: fields) := rfl
      have hmore := ih (List.cons_ne_nil _ _)
      rw [hstep, String.toList_append, String.toList_append, List.append_assoc,
        show nul.toList ++ (fieldsText (s' :: fields)).toList = led (s' :: fields) from hmore]
      rfl

/-- A field without NUL ends where the next begins. -/
theorem append_led_inj {a b : String} {as bs : List String} (ha : Free a) (hb : Free b)
    (heq : a.toList ++ led as = b.toList ++ led bs) : a = b ∧ led as = led bs := by
  have hall : ∀ {s : String}, Free s → s.toList.all (· != '\x00') = true := by
    intro s hs
    rw [List.all_eq_true]
    intro c hc
    exact bne_iff_ne.mpr fun hnul => hs (hnul ▸ hc)
  have hstop : ∀ fields, (led fields).head?.all (fun c => !(c != '\x00')) = true := by
    intro fields
    cases fields <;> rfl
  have hsame : a.toList = b.toList := by
    rw [← (Lexer.takeWhile_append_eq (hall ha) (hstop as)).1, heq,
      (Lexer.takeWhile_append_eq (hall hb) (hstop bs)).1]
  rw [hsame] at heq
  exact ⟨String.toList_injective hsame, List.append_cancel_left heq⟩

theorem led_injective {as bs : List String} (has : ∀ s, s ∈ as → Free s) (hbs : ∀ s, s ∈ bs → Free s)
    (heq : led as = led bs) : as = bs := by
  induction as generalizing bs with
  | nil =>
    cases bs with
    | nil => rfl
    | cons b bs => exact absurd heq (List.cons_ne_nil _ _).symm
  | cons a as ih =>
    cases bs with
    | nil => exact absurd heq (List.cons_ne_nil _ _)
    | cons b bs =>
      obtain ⟨rfl, hmore⟩ :=
        append_led_inj (has a List.mem_cons_self) (hbs b List.mem_cons_self) (List.cons.inj heq).2
      rw [ih (fun s hs => has s (List.mem_cons_of_mem _ hs))
        (fun s hs => hbs s (List.mem_cons_of_mem _ hs)) hmore]

def keywords : List String := ["buffer", "temp", "apply", "output"]

/-- Nothing follows, or something that begins with one of the words. -/
def Within (ks fields : List String) : Prop := ∀ s, fields.head? = some s → s ∈ ks

theorem within_nil (ks : List String) : Within ks [] := fun _ h => absurd h (by simp)

theorem Within.mono {ks ls fields : List String} (h : Within ks fields) (hsub : ks ⊆ ls) :
    Within ls fields :=
  fun s hs => hsub (h s hs)

variable {α β κ : Type} {key : α → κ} {e : α → List String}

/-- The key of an entry, and what follows it, can be told from its fields. -/
structure Framed (key : α → κ) (e : α → List String) : Prop where
  reads : ∀ {x y rest rest'}, Within keywords rest → Within keywords rest' → e x ++ rest = e y ++ rest' →
    key x = key y ∧ rest = rest'

def blocks (kind : String) (e : α → List String) (xs : List α) : List String :=
  xs.flatMap fun x => kind :: e x

theorem within_blocks (kind : String) (e : α → List String) (xs : List α) {ks rest : List String}
    (h : Within ks rest) : Within (kind :: ks) (blocks kind e xs ++ rest) := by
  cases xs with
  | nil => exact h.mono (List.subset_cons_self _ _)
  | cons x xs =>
    intro s hs
    cases hs
    exact List.mem_cons_self

theorem Framed.blocks (h : Framed key e) {kind : String} {ks rest rest' : List String}
    (hkind : kind :: ks ⊆ keywords)
    (hnew : kind ∉ ks) (hr : Within ks rest) (hr' : Within ks rest') {xs ys : List α}
    (heq : blocks kind e xs ++ rest = blocks kind e ys ++ rest') :
    xs.map key = ys.map key ∧ rest = rest' := by
  induction xs generalizing ys with
  | nil =>
    cases ys with
    | nil => exact ⟨rfl, heq⟩
    | cons y ys => exact absurd (hr kind (congrArg List.head? heq)) hnew
  | cons x xs ih =>
    cases ys with
    | nil => exact absurd (hr' kind (congrArg List.head? heq.symm)) hnew
    | cons y ys =>
      have hentry : e x ++ (Text.blocks kind e xs ++ rest) = e y ++ (Text.blocks kind e ys ++ rest') := by
        simpa [Text.blocks] using heq
      obtain ⟨hxy, hmore⟩ := h.reads ((within_blocks kind e xs hr).mono hkind)
        ((within_blocks kind e ys hr').mono hkind) hentry
      obtain ⟨hxys, hrest⟩ := ih hmore
      rw [List.map_cons, List.map_cons, hxy, hxys]
      exact ⟨rfl, hrest⟩

def placeFields (e : α → List String) (p : Option α × Nat) : List String :=
  natText p.2 :: p.1.elim ["-"] e

/-- An empty place is not taken for an item named by a dash, whose second field introduces no entry. -/
theorem Framed.place (h : Framed key e) (hsecond : ∀ x, ∃ a b more, e x = a :: b :: more ∧ b ∉ keywords) :
    Framed (fun p => p.1.map key) (placeFields e) := by
  constructor
  have hdash : ∀ {x rest rest'}, Within keywords rest' → e x ++ rest ≠ "-" :: rest' := by
    intro x rest rest' hr' heq
    obtain ⟨a, b, more, hx, hb⟩ := hsecond x
    rw [hx] at heq
    exact hb (hr' b (by rw [← (List.cons.inj heq).2]; rfl))
  rintro ⟨o, i⟩ ⟨o', i'⟩ rest rest' hr hr' heq
  have hitem := (List.cons.inj heq).2
  cases o with
  | none =>
    cases o' with
    | none => exact ⟨rfl, (List.cons.inj hitem).2⟩
    | some y => exact absurd hitem.symm (hdash hr)
  | some x =>
    cases o' with
    | none => exact absurd hitem (hdash hr')
    | some y =>
      obtain ⟨hxy, hrest⟩ := h.reads hr hr' hitem
      exact ⟨congrArg some hxy, hrest⟩

theorem toList_entriesText (kind : String) {e : α → List String} (hne : ∀ x, e x ≠ []) (xs : List α) :
    (entriesText kind (xs.map fun x => fieldsText (e x))).toList = led (blocks kind e xs) := by
  induction xs with
  | nil => rfl
  | cons x xs ih =>
    have hstep : entriesText kind ((x :: xs).map fun x => fieldsText (e x)) =
        nul ++ kind ++ nul ++ fieldsText (e x) ++
          entriesText kind (xs.map fun x => fieldsText (e x)) := by
      simp [entriesText]
    have hled :
        led (blocks kind e (x :: xs)) = '\x00' :: kind.toList ++ led (e x) ++ led (blocks kind e xs) := by
      simp [led, blocks]
    rw [hstep, hled, ← led_fieldsText (hne x), ← ih]
    simp [nul]

theorem placeText_eq {e : α → List String} (hne : ∀ x, e x ≠ []) (i : Nat) (o : Option α) :
    placeText (fun x => fieldsText (e x)) i o = fieldsText (placeFields e (o, i)) := by
  cases o with
  | none => rfl
  | some x =>
    have hx := hne x
    simp only [placeText, placeFields, Option.elim_some]
    cases hl : e x with
    | nil => exact absurd hl hx
    | cons s rest => rfl

theorem mapIdx_placeText {e : α → List String} (hne : ∀ x, e x ≠ []) (xs : List (Option α)) :
    xs.mapIdx (placeText fun x => fieldsText (e x)) = xs.zipIdx.map fun p =>
      fieldsText (placeFields e p) := by
  rw [List.mapIdx_eq_zipIdx_map]
  exact List.map_congr_left fun p _ => placeText_eq hne p.2 p.1

theorem toList_placesText (kind : String) {e : α → List String}
    (hne : ∀ x, e x ≠ []) (xs : List (Option α)) :
    (entriesText kind (xs.mapIdx (placeText fun x => fieldsText (e x)))).toList =
      led (blocks kind (placeFields e) xs.zipIdx) := by
  rw [mapIdx_placeText hne]
  exact toList_entriesText kind (fun _ => List.cons_ne_nil _ _) xs.zipIdx

end Text

def Buffer.fields (b : Buffer) : List String :=
  [b.name, b.elem.tag, optionStructure Box.structureText b.domain]

def Temporary.fields (t : Temporary) : List String :=
  [t.name, t.elem.tag, regionIdStructure t.producer, natText t.resultIndex]

def Region.fields (r : Region) : List String :=
  [r.name, bracketed (r.operands.map Operand.structureText), r.body.structureText,
    optionStructure Body.structureText r.epilogue, bracketed (r.results.map tempIdStructure)]

def OutputMark.fields (o : OutputMark) : List String := [tempIdStructure o.temp, o.domain.structureText]

namespace Text

theorem framed_buffer : Framed (fun b => { b with required := .unknown }) Buffer.fields := by
  constructor
  intro x y rest rest' _ _ heq
  simp only [Buffer.fields, List.cons_append, List.nil_append, List.cons.injEq] at heq
  obtain ⟨hname, helem, hdomain, hrest⟩ := heq
  have hdomain' : x.domain = y.domain := by simpa using clear_box.option.key_eq hdomain
  have helem' : x.elem = y.elem := clear_elemTag.key_eq helem
  refine ⟨?_, hrest⟩
  simp only [hname, helem', hdomain']

theorem framed_temp : Framed (fun t => { t with shape := .unknown }) Temporary.fields := by
  constructor
  intro x y rest rest' _ _ heq
  simp only [Temporary.fields, List.cons_append, List.nil_append, List.cons.injEq] at heq
  obtain ⟨hname, helem, hproducer, hindex, hrest⟩ := heq
  have helem' : x.elem = y.elem := clear_elemTag.key_eq helem
  have hproducer' : x.producer = y.producer := (clear_id (by decide)).key_eq hproducer
  refine ⟨?_, hrest⟩
  simp only [hname, helem', hproducer', natText_injective hindex]

theorem framed_region : Framed (fun r => { r.quieted with shape := .unknown }) Region.fields := by
  constructor
  intro x y rest rest' _ _ heq
  simp only [Region.fields, List.cons_append, List.nil_append, List.cons.injEq] at heq
  obtain ⟨hname, hoperands, hbody, hepilogue, hresults, hrest⟩ := heq
  have hoperands' : x.operands = y.operands := clear_operands.key_eq hoperands
  have hbody' : x.body.quieted = y.body.quieted := clear_body.key_eq hbody
  have hepilogue' : x.epilogue.map Body.quieted = y.epilogue.map Body.quieted :=
    clear_body.option.key_eq hepilogue
  have hresults' : x.results = y.results := (clear_ids (by decide) (by decide)).key_eq hresults
  refine ⟨?_, hrest⟩
  simp only [Region.quieted, hname, hoperands', hbody', hepilogue', hresults']

theorem framed_output : Framed id OutputMark.fields := by
  constructor
  intro x y rest rest' _ _ heq
  simp only [OutputMark.fields, List.cons_append, List.nil_append, List.cons.injEq] at heq
  obtain ⟨htemp, hdomain, hrest⟩ := heq
  have htemp' : x.temp = y.temp := (clear_id (by decide)).key_eq htemp
  have hdomain' : x.domain = y.domain := clear_box.key_eq hdomain
  cases x
  cases y
  cases htemp'
  cases hdomain'
  exact ⟨rfl, hrest⟩

theorem elemTag_not_keyword (e : ElemType) : e.tag ∉ keywords := by cases e <;> decide

theorem temp_second (t : Temporary) : ∃ a b more, t.fields = a :: b :: more ∧ b ∉ keywords :=
  ⟨_, _, _, rfl, elemTag_not_keyword t.elem⟩

theorem bracketed_not_keyword (items : List String) : bracketed items ∉ keywords := by
  have hwords : ∀ s, s ∈ keywords → Begins s := by decide
  intro hmem
  have hbegins := hwords _ hmem
  simp [Begins, bracketed, isWordChar, Lexer.isNameChar, Lexer.isLetter, Lexer.isDigit] at hbegins

theorem region_second (r : Region) : ∃ a b more, r.fields = a :: b :: more ∧ b ∉ keywords :=
  ⟨_, _, _, rfl, bracketed_not_keyword _⟩

end Text

namespace Func

open Text

def outputFields (f : Func) : List String := blocks "output" OutputMark.fields f.outputs

def regionFields (f : Func) : List String :=
  blocks "apply" (placeFields Region.fields) f.regions.zipIdx ++ f.outputFields

def tempFields (f : Func) : List String :=
  blocks "temp" (placeFields Temporary.fields) f.temps.zipIdx ++ f.regionFields

def structureFields (f : Func) : List String :=
  natText f.rank :: (blocks "buffer" Buffer.fields f.buffers ++ f.tempFields)

theorem within_outputFields (f : Func) : Within ["output"] f.outputFields := by
  have h := within_blocks "output" OutputMark.fields f.outputs (within_nil [])
  rwa [List.append_nil] at h

theorem within_regionFields (f : Func) : Within ["apply", "output"] f.regionFields :=
  within_blocks _ _ _ f.within_outputFields

theorem within_tempFields (f : Func) : Within ["temp", "apply", "output"] f.tempFields :=
  within_blocks _ _ _ f.within_regionFields

theorem toList_structureText (f : Func) :
    f.structureText.toList = f.name.toList ++ led f.structureFields := by
  have hbuffers : (entriesText "buffer" (f.buffers.map Buffer.structureText)).toList =
      led (blocks "buffer" Buffer.fields f.buffers) :=
    toList_entriesText "buffer" (fun _ => List.cons_ne_nil _ _) f.buffers
  have htemps : (entriesText "temp" (f.temps.mapIdx (placeText Temporary.structureText))).toList =
      led (blocks "temp" (placeFields Temporary.fields) f.temps.zipIdx) :=
    toList_placesText "temp" (fun _ => List.cons_ne_nil _ _) f.temps
  have hregions : (entriesText "apply" (f.regions.mapIdx (placeText Region.structureText))).toList =
      led (blocks "apply" (placeFields Region.fields) f.regions.zipIdx) :=
    toList_placesText "apply" (fun _ => List.cons_ne_nil _ _) f.regions
  have houtputs : (entriesText "output" (f.outputs.map OutputMark.structureText)).toList =
      led (blocks "output" OutputMark.fields f.outputs) :=
    toList_entriesText "output" (fun _ => List.cons_ne_nil _ _) f.outputs
  simp only [structureText, String.toList_append, hbuffers, htemps, hregions, houtputs, structureFields,
    tempFields, regionFields, outputFields]
  simp [led, nul]

/-- No name has the character that divides the fields. -/
structure NulFree (f : Func) : Prop where
  name : Free f.name
  buffer : ∀ b ∈ f.buffers, Free b.name
  temp : ∀ o ∈ f.temps, ∀ x ∈ o, Free x.name
  region : ∀ o ∈ f.regions, ∀ r ∈ o, Free r.name

theorem free_blocks {β : Type} {kind : String} {e : β → List String} {xs : List β} (hkind : Free kind)
    (h : ∀ x ∈ xs, ∀ s ∈ e x, Free s) : ∀ s ∈ blocks kind e xs, Free s := by
  intro s hs
  obtain ⟨x, hx, hmem⟩ := List.mem_flatMap.mp hs
  rcases List.mem_cons.mp hmem with rfl | hmem
  · exact hkind
  · exact h x hx s hmem

theorem free_places {β : Type} {e : β → List String} {xs : List (Option β)}
    (h : ∀ o ∈ xs, ∀ x ∈ o, ∀ s ∈ e x, Free s) : ∀ p ∈ xs.zipIdx, ∀ s ∈ placeFields e p, Free s := by
  intro p hp s hs
  rcases List.mem_cons.mp hs with rfl | hs
  · exact clear_natText.free _
  · have hmem : p.1 ∈ xs := List.fst_mem_of_mem_zipIdx hp
    cases hx : p.1 with
    | none =>
      rw [hx] at hs
      rw [List.mem_singleton.mp hs]
      decide
    | some x =>
      rw [hx] at hs
      exact h _ hmem x hx s hs

theorem NulFree.fields {f : Func} (h : f.NulFree) : ∀ s ∈ f.structureFields, Free s := by
  have hbuffer : ∀ b ∈ f.buffers, ∀ s ∈ b.fields, Free s := by
    intro b hb
    simp only [Buffer.fields, List.forall_mem_cons]
    exact ⟨h.buffer b hb, clear_elemTag.free _, clear_box.option.free _, List.forall_mem_nil _⟩
  have htemp : ∀ o ∈ f.temps, ∀ x ∈ o, ∀ s ∈ x.fields, Free s := by
    intro o ho x hx
    simp only [Temporary.fields, List.forall_mem_cons]
    exact ⟨h.temp o ho x hx, clear_elemTag.free _, (clear_id (by decide)).free _, clear_natText.free _,
      List.forall_mem_nil _⟩
  have hregion : ∀ o ∈ f.regions, ∀ r ∈ o, ∀ s ∈ r.fields, Free s := by
    intro o ho r hr
    simp only [Region.fields, List.forall_mem_cons]
    exact ⟨h.region o ho r hr, clear_operands.free _, clear_body.free _, clear_body.option.free _,
      (clear_ids (by decide) (by decide)).free _, List.forall_mem_nil _⟩
  have houtput : ∀ o ∈ f.outputs, ∀ s ∈ o.fields, Free s := by
    intro o _
    simp only [OutputMark.fields, List.forall_mem_cons]
    exact ⟨(clear_id (by decide)).free _, clear_box.free _, List.forall_mem_nil _⟩
  simp only [structureFields, tempFields, regionFields, outputFields, List.forall_mem_cons,
    List.forall_mem_append]
  exact ⟨clear_natText.free _, free_blocks (by decide) hbuffer,
    free_blocks (by decide) (free_places htemp), free_blocks (by decide) (free_places hregion),
    free_blocks (by decide) houtput⟩

theorem map_zipIdx {β γ : Type} (k : β → γ) (xs : List β) :
    xs.zipIdx.map (fun p => k p.1) = xs.map k := by
  conv_rhs => rw [← List.zipIdx_map_fst 0 xs, List.map_map]
  rfl

theorem regions_quieted_clearShapes (f : Func) : f.quieted.clearShapes.regions =
    f.regions.map (Option.map fun r => { r.quieted with shape := .unknown }) := by
  simp only [clearShapes, quieted, List.map_map]
  apply List.map_congr_left
  intro o _
  cases o <;> rfl

theorem sameStructure_of_fields {f g : Func} (hname : f.name = g.name)
    (h : f.structureFields = g.structureFields) :
    f.quieted.SameStructure g.quieted := by
  obtain ⟨hrank, h⟩ := List.cons.inj h
  obtain ⟨hbuffers, h⟩ :=
    framed_buffer.blocks (by decide) (by decide) f.within_tempFields g.within_tempFields h
  obtain ⟨htemps, h⟩ :=
    (framed_temp.place temp_second).blocks (by decide) (by decide) f.within_regionFields
    g.within_regionFields h
  obtain ⟨hregions, h⟩ :=
    (framed_region.place region_second).blocks (by decide) (by decide) f.within_outputFields
    g.within_outputFields h
  have hend : blocks "output" OutputMark.fields f.outputs ++ [] =
      blocks "output" OutputMark.fields g.outputs ++ [] :=
    congrArg (· ++ []) h
  obtain ⟨houtputs, -⟩ :=
    framed_output.blocks (by decide) List.not_mem_nil (within_nil []) (within_nil []) hend
  rw [map_zipIdx, map_zipIdx] at htemps hregions
  rw [← regions_quieted_clearShapes, ← regions_quieted_clearShapes] at hregions
  rw [List.map_id, List.map_id] at houtputs
  have hparts : ∀ k : Func, k.quieted.clearShapes =
      ⟨k.name, k.rank, k.buffers.map fun b => { b with required := .unknown },
        k.temps.map (Option.map fun t => { t with shape := .unknown }), k.quieted.clearShapes.regions,
        k.outputs,
        none⟩ := fun _ => rfl
  rw [SameStructure, hparts f, hparts g, hname, natText_injective hrank, hbuffers, htemps, hregions,
    houtputs]

theorem NulFree.structureText_eq_iff {f g : Func} (hf : f.NulFree) (hg : g.NulFree) :
    f.structureText = g.structureText ↔ f.quieted.SameStructure g.quieted := by
  constructor
  · intro h
    have hlist : f.name.toList ++ led f.structureFields = g.name.toList ++ led g.structureFields := by
      rw [← toList_structureText, h, toList_structureText]
    obtain ⟨hname, hled⟩ := append_led_inj hf.name hg.name hlist
    exact sameStructure_of_fields hname (led_injective hf.fields hg.fields hled)
  · intro h
    rw [← structureText_quieted f, ← structureText_quieted g, ← structureText_clearShapes f.quieted,
      ← structureText_clearShapes g.quieted, show f.quieted.clearShapes = g.quieted.clearShapes from h]

theorem toList_loop (bs : ByteArray) (i : Nat) (acc : List UInt8) :
    ByteArray.toList.loop bs i acc = acc.reverse ++ bs.data.toList.drop i := by
  fun_induction ByteArray.toList.loop bs i acc with
  | case1 i acc h ih =>
    have hi : i < bs.data.toList.length := h
    rw [ih, List.drop_eq_getElem_cons hi]
    simp [ByteArray.get!, getElem!_pos, h]
  | case2 i acc h =>
    have hi : bs.data.toList.length ≤ i := Nat.le_of_not_lt h
    rw [List.drop_eq_nil_of_le hi, List.append_nil]

theorem utf8_injective {s s' : String} (h : s.toUTF8.toList = s'.toUTF8.toList) : s = s' := by
  rw [ByteArray.toList, ByteArray.toList, toList_loop, toList_loop] at h
  exact String.toByteArray_inj.mp (ByteArray.ext (Array.toList_inj.mp h))

theorem free_of_nameChars {s : String} (h : s.toList.all Lexer.isNameChar = true) : Free s :=
  fun hmem => absurd (List.all_eq_true.mp h _ hmem) (by decide)

theorem free_of_isGlobalName {s : String} (h : Lexer.isGlobalName s = true) : Free s :=
  free_of_nameChars (Bool.and_eq_true_iff.mp h).2

theorem free_of_isIdent {s : String} (h : Lexer.isIdent s = true) : Free s :=
  free_of_isGlobalName (Bool.and_eq_true_iff.mp h).1

theorem Built.nulFree {f : Func} {d : FuncDecl} {declared : Resolution.Declared} {rs : List Region}
    (h : f.Built d declared rs) : f.NulFree where
  name := by
    rw [h.name]
    exact free_of_isIdent h.spelled.name
  buffer b hb := free_of_isGlobalName (h.valid.buffer b (h.buffers ▸ hb)).1
  temp o ho x hx := by
    rw [h.dense.temps, List.mem_map] at ho
    obtain ⟨x', hmem, rfl⟩ := ho
    cases hx
    exact free_of_nameChars (Bool.and_eq_true_iff.mp (h.valid.temp x hmem).1).2
  region o ho r hr := by
    rw [h.dense.regions, List.mem_map] at ho
    obtain ⟨r', hmem, rfl⟩ := ho
    cases hr
    obtain ⟨id, hid⟩ := List.mem_iff_getElem?.mp hmem
    rw [← h.dense.region?_eq] at hid
    exact free_of_isIdent (h.placed hid).name

theorem nulFree_of_load {s : String} {p : Program} (h : Program.load s = .ok p) {f : Func}
    (hf : f ∈ p.functions) :
    f.NulFree := by
  obtain ⟨d, declared, rs, hbuilt⟩ := (Program.built_of_load h).1 f hf
  exact hbuilt.nulFree

def ConstantsNumeric (f : Func) : Prop :=
  ∀ id r b c, f.region? id = some r → b ∈ r.bodies → .constant c ∈ b.ops → c.isNaN = false

theorem quieted_body {b : Body} (h : ∀ c, .constant c ∈ b.ops → c.isNaN = false) : b.quieted = b := by
  have hop : ∀ op ∈ b.ops, op.quieted = id op := by
    intro op hop
    cases op with
    | constant c =>
      rw [Op.quieted, Scalar.quieted, h c hop]
      rfl
    | _ => rfl
  rw [Body.quieted, List.map_congr_left hop, List.map_id]

theorem ConstantsNumeric.quieted_eq {f : Func} (h : f.ConstantsNumeric) : f.quieted = f := by
  have hplace : ∀ o ∈ f.regions, o.map Region.quieted = id o := by
    intro o ho
    cases o with
    | none => rfl
    | some r =>
      obtain ⟨id, hid⟩ := List.mem_iff_getElem?.mp ho
      have hr : f.region? id = some r := by rw [region?, hid]; rfl
      have hbody : ∀ b ∈ r.bodies, b.quieted = b :=
        fun b hb => quieted_body fun c hc => h id r b c hr hb hc
      have hepilogue : r.epilogue.map Body.quieted = r.epilogue := by
        cases he : r.epilogue with
        | none => rfl
        | some e => exact congrArg some (hbody e (by simp [Region.bodies, he]))
      rw [Option.map_some, Region.quieted, hbody r.body List.mem_cons_self, hepilogue]
      rfl
  rw [quieted, List.map_congr_left hplace, List.map_id]

/-- What the fingerprint is the digest of. -/
def structureBytes (f : Func) : List UInt8 := f.structureText.toUTF8.toList

theorem fingerprint_eq (f : Func) : f.fingerprint = Sha256.digest f.structureBytes := rfl

theorem NulFree.structureBytes_eq_iff {f g : Func} (hf : f.NulFree) (hg : g.NulFree) :
    f.structureBytes = g.structureBytes ↔ f.quieted.SameStructure g.quieted := by
  rw [← hf.structureText_eq_iff hg]
  exact ⟨utf8_injective, fun h => by rw [structureBytes, h, structureBytes]⟩

/-- The bytes behind two fingerprints are the same just if the functions have one structure, where
one NaN is taken for another; then so are the fingerprints, unless these very bytes collide, and a
stamp is fresh on no other structure. What a program that was read names has no NUL. -/
theorem fingerprint_identifies_structure {f g : Func} (hf : f.NulFree) (hg : g.NulFree) :
    (f.structureBytes = g.structureBytes ↔ f.quieted.SameStructure g.quieted) ∧
    (f.ConstantsNumeric → g.ConstantsNumeric →
      (f.structureBytes = g.structureBytes ↔ f.SameStructure g)) ∧
    ((Sha256.digest f.structureBytes = Sha256.digest g.structureBytes →
      f.structureBytes = g.structureBytes) →
      (f.fingerprint = g.fingerprint ↔ f.quieted.SameStructure g.quieted) ∧
      (f.stamp = g.recordStamp.stamp → (f.fresh = true ↔ f.quieted.SameStructure g.quieted))) ∧
    ∀ s p, Program.load s = .ok p → ∀ k ∈ p.functions, k.NulFree := by
  have hbytes := hf.structureBytes_eq_iff hg
  refine ⟨hbytes, ?_, ?_, fun s p h k hk => nulFree_of_load h hk⟩
  · intro hfn hgn
    rw [hbytes, hfn.quieted_eq, hgn.quieted_eq]
  · intro hfree
    have hdigest : f.fingerprint = g.fingerprint ↔ f.quieted.SameStructure g.quieted := by
      rw [← hbytes, fingerprint_eq, fingerprint_eq]
      exact ⟨hfree, congrArg Sha256.digest⟩
    refine ⟨hdigest, fun hstamp => ?_⟩
    rw [fresh_iff, hstamp, ← hdigest]
    constructor
    · intro h
      exact (Sha256.State.words_injective (Option.some.inj h)).symm
    · intro h
      rw [h]
      rfl

/-- A region whose name is a dash, with a result of the same name. -/
def dashed : Func where
  name := "f"
  rank := 1
  buffers := [⟨"buffer", .f32, some ⟨[0], [8]⟩, .known ⟨[0], [4]⟩⟩]
  temps := [some ⟨"-", .f64, 0, 0, .known ⟨[0], [4]⟩⟩]
  regions :=
    [some ⟨"-", [.buffer 0], ⟨[.access 0 [-1], .call "temp" [0] true], [1], none⟩, none, [0], .unknown⟩]
  outputs := []
  stamp := none

/-- A region named by a dash is not taken for an empty place, nor are its annotations part of its
structure. -/
theorem fingerprint_identifies_structure_dashed :
    (dashed.NulFree ∧ (dashed.removeRegion 0).NulFree) ∧
      dashed.structureBytes ≠ (dashed.removeRegion 0).structureBytes ∧
      dashed.structureBytes = dashed.clearShapes.structureBytes := by
  have hdashed : dashed.NulFree := ⟨by decide, by decide, by decide, by decide⟩
  have hremoved : (dashed.removeRegion 0).NulFree := ⟨by decide, by decide, by decide, by decide⟩
  have hcleared : dashed.clearShapes.NulFree := ⟨by decide, by decide, by decide, by decide⟩
  refine ⟨⟨hdashed, hremoved⟩, ?_, ?_⟩
  · rw [ne_eq, (fingerprint_identifies_structure hdashed hremoved).1]
    exact (by decide : ¬ dashed.quieted.clearShapes = (dashed.removeRegion 0).quieted.clearShapes)
  · rw [(fingerprint_identifies_structure hdashed hcleared).1]
    exact (by decide : dashed.quieted.clearShapes = dashed.clearShapes.quieted.clearShapes)

end Func

end Stencil
