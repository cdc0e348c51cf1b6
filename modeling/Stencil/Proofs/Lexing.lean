import Stencil.Proofs.Numeral

/-! Lexing of written tokens: a text that is put together from tokens, with blanks where two of them
would run together, is cut into these tokens again. -/

set_option autoImplicit false

namespace Stencil

namespace Lexer

/-- What a piece stands for: nothing, a token, or no token where one should be. -/
def meaning? : Piece → Option (Option Token)
  | .blank _ => none
  | .token _ t => some (some t)
  | .refused _ => some none

/-- The tokens of a text, with `none` for every part that is refused. -/
def scan (cs : List Char) : List (Option Token) := (pieces cs).filterMap meaning?

theorem scan_nil : scan [] = [] := by rw [scan, pieces]; rfl

theorem scan_cons (c : Char) (cs : List Char) :
    scan (c :: cs) = (meaning? (first c cs)).toList ++ scan (cs.drop ((first c cs).text.length - 1)) := by
  rw [scan, pieces]
  simp only [List.filterMap_cons]
  cases meaning? (first c cs) <;> rfl

theorem scan_token {c : Char} {w rest : List Char} {t : Token}
    (h : first c (w ++ rest) = .token (c :: w) t) : scan (c :: (w ++ rest)) = some t :: scan rest := by
  rw [scan_cons, h]
  simp [meaning?, Piece.text]

/-- A lexed text has the scanned tokens, and faults just where the scan has none. -/
theorem lex_of_scan {source : String} {ts : List Token} (h : scan source.toList = ts.map some) :
    (lex source).1.map (·.token) = ts ∧ (lex source).2 = [] := by
  have hplaced : ∀ (ps : List Piece) (start : Nat) (ts : List Token),
      ps.filterMap meaning? = ts.map some →
      ((placed start ps).filterMap lexeme?).map (·.token) = ts ∧
        (placed start ps).filterMap error? = [] := by
    intro ps
    induction ps with
    | nil =>
      intro start ts hts
      rw [List.filterMap_nil, eq_comm, List.map_eq_nil_iff] at hts
      exact ⟨hts.symm, rfl⟩
    | cons p ps ih =>
      intro start ts hts
      rw [placed]
      cases p with
      | blank w => exact ih _ ts hts
      | token w t =>
        simp only [List.filterMap_cons, meaning?] at hts
        cases ts with
        | nil => cases hts
        | cons t' ts =>
          simp only [List.map_cons, List.cons.injEq, Option.some.injEq] at hts
          obtain ⟨rfl, hts⟩ := hts
          obtain ⟨h1, h2⟩ := ih _ ts hts
          exact ⟨by simpa [lexeme?] using h1, h2⟩
      | refused w =>
        simp only [List.filterMap_cons, meaning?] at hts
        cases ts <;> cases hts
  exact hplaced _ 0 ts h

theorem takeWhile_append_eq {p : Char → Bool} {w rest : List Char} (hw : w.all p = true)
    (hr : rest.head?.all (fun c => !p c) = true) :
    (w ++ rest).takeWhile p = w ∧ (w ++ rest).dropWhile p = rest := by
  induction w with
  | nil =>
    cases rest with
    | nil => exact ⟨rfl, rfl⟩
    | cons c rest =>
      have hc : p c = false := by simpa using hr
      simp [hc]
  | cons c w ih =>
    rw [List.all_cons, Bool.and_eq_true] at hw
    simp [hw.1, ih hw.2]

/-- Whether a name or a number in front of the text ends there. -/
def boundary (cs : List Char) : Bool := cs.head?.all fun c => !isNameChar c && c != '.'

theorem boundary_append {cs ds : List Char} (hc : boundary cs = true) (hd : boundary ds = true) :
    boundary (cs ++ ds) = true := by
  cases cs with
  | nil => exact hd
  | cons c cs => exact hc

theorem boundary.nameChar {cs : List Char} (h : boundary cs = true) :
    cs.head?.all (fun c => !isNameChar c) = true := by
  cases cs with
  | nil => rfl
  | cons c cs =>
    simp only [boundary, List.head?_cons, Option.all_some, Bool.and_eq_true] at h ⊢
    exact h.1

theorem boundary.digit {cs : List Char} (h : boundary cs = true) :
    cs.head?.all (fun c => !isDigit c) = true := by
  have := boundary.nameChar h
  cases cs with
  | nil => rfl
  | cons c cs =>
    simp only [List.head?_cons, Option.all_some, isNameChar, Bool.not_or, Bool.and_eq_true] at this ⊢
    exact this.2

theorem scan_blank {c : Char} (h : isBlank c = true) (cs : List Char) : scan (c :: cs) = scan cs := by
  have hrun : ∀ {c : Char}, isBlank c = true → ∀ cs, scan (c :: cs) = scan (cs.dropWhile isBlank) := by
    intro c hc cs
    have hfirst : first c cs = .blank (c :: cs.takeWhile isBlank) := if_pos hc
    have hdrop : cs.drop (cs.takeWhile isBlank).length = cs.dropWhile isBlank := by
      conv_lhs => arg 2; rw [← List.takeWhile_append_dropWhile (p := isBlank) (l := cs)]
      exact List.drop_left
    rw [scan_cons, hfirst]
    simpa [meaning?, Piece.text] using congrArg scan hdrop
  rw [hrun h]
  cases cs with
  | nil => rfl
  | cons d ds =>
    by_cases hd : isBlank d = true
    · rw [List.dropWhile_cons, if_pos hd, hrun hd]
    · rw [List.dropWhile_cons, if_neg hd]

theorem scan_symbol (s : Symbol) (rest : List Char) :
    scan (s.text.toList ++ rest) = some (.symbol s) :: scan rest := by
  cases s with
  | arrow => exact scan_token (w := ['>']) rfl
  | colon => exact scan_token (w := []) rfl
  | comma => exact scan_token (w := []) rfl
  | equals => exact scan_token (w := []) rfl
  | lparen => exact scan_token (w := []) rfl
  | rparen => exact scan_token (w := []) rfl
  | lbrace => exact scan_token (w := []) rfl
  | rbrace => exact scan_token (w := []) rfl
  | lbracket => exact scan_token (w := []) rfl
  | rbracket => exact scan_token (w := []) rfl

theorem isBlank_cases {c : Char} (h : isBlank c = true) : c = ' ' ∨ c = '\t' ∨ c = '\r' ∨ c = '\n' := by
  simpa [isBlank, or_assoc] using h

theorem not_blank_of_isLetter {c : Char} (h : isLetter c = true) : isBlank c = false ∧ c ≠ '#' := by
  constructor
  · cases hb : isBlank c with
    | false => rfl
    | true => rcases isBlank_cases hb with rfl | rfl | rfl | rfl <;> exact absurd h (by decide)
  · rintro rfl
    exact absurd h (by decide)

theorem not_letter_of_isDigit {c : Char} (h : isDigit c = true) :
    isBlank c = false ∧ c ≠ '#' ∧ isLetter c = false := by
  refine ⟨?_, ?_, ?_⟩
  · cases hb : isBlank c with
    | false => rfl
    | true => rcases isBlank_cases hb with rfl | rfl | rfl | rfl <;> exact absurd h (by decide)
  · rintro rfl
    exact absurd h (by decide)
  · by_contra hc
    simp only [isLetter, isDigit, Bool.not_eq_false, Bool.or_eq_true, Bool.and_eq_true,
      decide_eq_true_eq, Char.le_def, UInt32.le_iff_toNat_le] at hc h
    rcases hc with (hc | hc) | rfl
    · have h1 : 'a'.val.toNat = 97 := rfl
      have h2 : '9'.val.toNat = 57 := rfl
      omega
    · have h1 : 'A'.val.toNat = 65 := rfl
      have h2 : '9'.val.toNat = 57 := rfl
      omega
    · exact absurd h.2 (by decide)

def isName (cs : List Char) : Bool := cs.head?.any isLetter && cs.all isNameChar

theorem scan_word {w rest : List Char} (hw : isName w = true) (hr : boundary rest = true) :
    scan (w ++ rest) = some (word w) :: scan rest := by
  cases w with
  | nil => cases hw
  | cons c w =>
    simp only [isName, List.head?_cons, Option.any_some, List.all_cons, Bool.and_eq_true] at hw
    obtain ⟨hc, _, hw⟩ := hw
    obtain ⟨hblank, hhash⟩ := not_blank_of_isLetter hc
    apply scan_token
    simp [first, hblank, hhash, hc, (takeWhile_append_eq hw (boundary.nameChar hr)).1]

theorem scan_local {w rest : List Char} (hne : w ≠ []) (hw : w.all isNameChar = true)
    (hr : boundary rest = true) :
    scan ('%' :: (w ++ rest)) = some (.localName (String.ofList w)) :: scan rest := by
  apply scan_token
  have htake := (takeWhile_append_eq hw (boundary.nameChar hr)).1
  simp [first, show isBlank '%' = false from rfl, show isLetter '%' = false from rfl,
    show isDigit '%' = false from rfl, htake, hne]

theorem first_global (cs : List Char) : first '@' cs = match cs.takeWhile isNameChar with
    | d :: _ =>
      if isLetter d then .token ('@' :: cs.takeWhile isNameChar)
        (.globalName (String.ofList (cs.takeWhile isNameChar))) else .refused ['@']
    | [] => .refused ['@'] := rfl

theorem scan_global {w rest : List Char} (hw : isName w = true) (hr : boundary rest = true) :
    scan ('@' :: (w ++ rest)) = some (.globalName (String.ofList w)) :: scan rest := by
  apply scan_token
  cases w with
  | nil => cases hw
  | cons c w =>
    simp only [isName, List.head?_cons, Option.any_some, Bool.and_eq_true] at hw
    have htake := (takeWhile_append_eq hw.2 (boundary.nameChar hr)).1
    rw [first_global, htake]
    exact if_pos hw.1

theorem fractionPart_of_boundary {cs : List Char} (h : boundary cs = true) : fractionPart cs = [] := by
  cases cs with
  | nil => rfl
  | cons c cs =>
    have hc : c ≠ '.' := by
      rintro rfl
      cases h
    unfold fractionPart
    split
    · next heq =>
      cases heq
      exact absurd rfl hc
    · rfl

theorem exponentPart_of_boundary {cs : List Char} (h : boundary cs = true) : exponentPart cs = [] := by
  cases cs with
  | nil => rfl
  | cons c cs =>
    have hc : ¬ ((c = 'e' || c = 'E') = true) := by
      intro he
      rcases (by simpa using he : c = 'e' ∨ c = 'E') with rfl | rfl <;> cases h
    exact if_neg hc

theorem fractionPart_append {ds rest : List Char} (hne : ds ≠ []) (hd : ds.all isDigit = true)
    (hr : rest.head?.all (fun c => !isDigit c) = true) :
    fractionPart ('.' :: ds ++ rest) = '.' :: ds := by
  rw [List.cons_append, fractionPart]
  simp [(takeWhile_append_eq hd hr).1, hne]

theorem number_float (sign fraction exponent rest : List Char) {whole : List Char}
    (hw : whole.all isDigit = true)
    (hstop : (fraction ++ exponent ++ rest).head?.all (fun c => !isDigit c) = true)
    (hf : fractionPart (fraction ++ exponent ++ rest) = fraction)
    (he : exponentPart (exponent ++ rest) = exponent) (hne : fraction ≠ [] ∨ exponent ≠ []) :
    number sign (whole ++ fraction ++ exponent ++ rest) =
      .token (sign ++ whole ++ fraction ++ exponent)
        (.float (Scalar.ofDecimal (!sign.isEmpty) (Numeral.value (whole ++ fraction.drop 1))
          (exponentValue exponent - (fraction.drop 1).length))) := by
  have hassoc : whole ++ fraction ++ exponent ++ rest = whole ++ (fraction ++ exponent ++ rest) := by
    simp [List.append_assoc]
  obtain ⟨htake, hdrop⟩ := takeWhile_append_eq hw hstop
  have hexp : exponentPart ((fraction ++ exponent ++ rest).drop fraction.length) = exponent := by
    rw [List.append_assoc, List.drop_left, he]
  unfold number
  simp only [hassoc, htake, hdrop, hf, hexp]
  rw [if_neg]
  simpa [← not_and_or] using hne

theorem number_int {sign whole rest : List Char} (hw : whole.all isDigit = true)
    (hr : boundary rest = true) {z : Int}
    (hz : z = if sign.isEmpty then (Numeral.value whole : Int) else -(Numeral.value whole : Int))
    (hrange : intInRange z = true) : number sign (whole ++ rest) = .token (sign ++ whole) (.int z) := by
  obtain ⟨htake, hdrop⟩ := takeWhile_append_eq hw (boundary.digit hr)
  unfold number
  simp only [htake, hdrop, fractionPart_of_boundary hr, exponentPart_of_boundary hr, List.length_nil,
    List.drop_zero, List.append_nil, List.isEmpty_nil, Bool.and_self, if_true]
  have hsign :
      (if (!sign.isEmpty) = true then -(Numeral.value whole : Int) else (Numeral.value whole : Int)) =
      z := by
    rw [hz]
    cases sign.isEmpty <;> rfl
  rw [hsign, if_pos hrange]

theorem first_digit {c : Char} (h : isDigit c = true) (cs : List Char) :
    first c cs = number [] (c :: cs) := by
  obtain ⟨h1, h2, h3⟩ := not_letter_of_isDigit h
  simp [first, h1, h2, h3, h]

theorem first_minus {c : Char} (h : isDigit c = true) (cs : List Char) :
    first '-' (c :: cs) = number ['-'] (c :: cs) := by
  have hgt : c ≠ '>' := by
    rintro rfl
    cases h
  unfold first
  simp only [show isBlank '-' = false from rfl, show isLetter '-' = false from rfl,
    show isDigit '-' = false from rfl]
  simp [h]

theorem scan_number {sign w rest : List Char} {t : Token} (hsign : sign = [] ∨ sign = ['-'])
    (hd : w.head?.any isDigit = true) (h : number sign (w ++ rest) = .token (sign ++ w) t) :
    scan (sign ++ w ++ rest) = some t :: scan rest := by
  cases w with
  | nil => cases hd
  | cons c w =>
    have hc : isDigit c = true := hd
    rcases hsign with rfl | rfl
    · exact scan_token ((first_digit hc _).trans h)
    · exact scan_token ((first_minus hc _).trans h)

theorem scan_int {z : Int} (hz : intInRange z = true) {rest : List Char} (hr : boundary rest = true) :
    scan (Numeral.ofInt z ++ rest) = some (.int z) :: scan rest := by
  have hall : ∀ n, (Numeral.digits n).all isDigit = true := by
    intro n
    rw [List.all_eq_true]
    exact fun c hc => Numeral.isDigit_of_mem_digits hc
  have hhead : ∀ n, (Numeral.digits n).head?.any isDigit = true := by
    intro n
    have hn := Numeral.digits_ne_nil n
    have ha := hall n
    cases hd : Numeral.digits n with
    | nil => exact absurd hd hn
    | cons c cs =>
      rw [hd, List.all_cons, Bool.and_eq_true] at ha
      exact ha.1
  cases z with
  | ofNat n =>
    exact scan_number (.inl rfl) (hhead n) (number_int (hall n) hr (by simp [Numeral.value_digits]) hz)
  | negSucc n =>
    refine scan_number (w := Numeral.digits (n + 1)) (.inr rfl) (hhead _) (number_int (hall _) hr ?_ hz)
    simp [Numeral.value_digits, Int.negSucc_eq]

def isIdent (s : String) : Bool := isName s.toList && (Keyword.ofText? s).isNone

def isLocalName (s : String) : Bool := !s.toList.isEmpty && s.toList.all isNameChar

def isGlobalName (s : String) : Bool := isName s.toList

def isWritable : Token → Bool
  | .ident n => isIdent n
  | .localName n => isLocalName n
  | .globalName n => isGlobalName n
  | .int z => intInRange z
  | .float _ | .keyword _ | .symbol _ => true

theorem isName_takeWhile {c : Char} (h : isLetter c = true) (cs : List Char) :
    isName (c :: cs.takeWhile isNameChar) = true := by
  simp only [isName, List.head?_cons, Option.any_some, h, List.all_cons, List.all_takeWhile, isNameChar,
    Bool.true_or, Bool.and_self]

theorem isWritable_word {cs : List Char} (h : isName cs = true) : isWritable (word cs) = true := by
  unfold word
  simp only
  cases hk : Keyword.ofText? (String.ofList cs) with
  | some k => rfl
  | none => simp [isWritable, isIdent, h, hk]

theorem isWritable_number {sign cs w : List Char} {t : Token} (h : number sign cs = .token w t) :
    isWritable t = true := by
  unfold number at h
  simp only at h
  generalize (if (!sign.isEmpty) = true then -(Numeral.value (cs.takeWhile isDigit) : Int)
    else (Numeral.value (cs.takeWhile isDigit) : Int)) = z at h
  split at h
  · split at h
    · next hrange =>
      cases h
      exact hrange
    · cases h
  · cases h
    rfl

theorem isWritable_of_first {c : Char} {cs w : List Char} {t : Token} (h : first c cs = .token w t) :
    isWritable t = true := by
  -- blanks and comments first, then one class of token after the other
  unfold first at h
  split at h
  · cases h
  split at h
  · cases h
  split at h
  · next hc =>
    cases h
    exact isWritable_word (isName_takeWhile hc cs)
  split at h
  · exact isWritable_number h
  split at h
  · simp only at h
    split at h
    · cases h
    · next hne =>
      cases h
      simp only [isWritable, isLocalName, String.toList_ofList, List.all_takeWhile, Bool.and_true]
      simpa using hne
  split at h
  · simp only at h
    split at h
    · next d ds hd =>
      split at h
      · next hletter =>
        cases h
        have hall := List.all_takeWhile (l := cs) (p := isNameChar)
        rw [hd] at hall ⊢
        simp [isWritable, isGlobalName, isName, hletter, hall]
      · cases h
    · cases h
  split at h
  · split at h
    · cases h
      rfl
    · split at h
      · exact isWritable_number h
      · cases h
    · cases h
  split at h
  · cases h
    rfl
  · cases h

theorem isWritable_of_mem_pieces {cs w : List Char} {t : Token} (h : .token w t ∈ pieces cs) :
    isWritable t = true := by
  induction cs using pieces.induct with
  | case1 =>
    rw [pieces] at h
    cases h
  | case2 c cs p ih =>
    rw [pieces] at h
    rcases List.mem_cons.mp h with h | h
    · exact isWritable_of_first h.symm
    · exact ih h

theorem mem_of_mem_placed {ps : List Piece} {start : Nat} {span : Span} {p : Piece}
    (h : (span, p) ∈ placed start ps) : p ∈ ps := by
  induction ps generalizing start with
  | nil => cases h
  | cons q ps ih =>
    rw [placed] at h
    rcases List.mem_cons.mp h with h | h
    · cases h
      exact List.mem_cons_self
    · exact List.mem_cons_of_mem _ (ih h)

theorem isWritable_of_lex {source : String} {l : Lexeme} (h : l ∈ (lex source).1) :
    isWritable l.token = true := by
  obtain ⟨⟨span, p⟩, hp, hl⟩ := List.mem_filterMap.mp h
  cases p with
  | blank w => cases hl
  | refused w => cases hl
  | token w t =>
    cases hl
    exact isWritable_of_mem_pieces (mem_of_mem_placed hp)

/-- The text is cut into these tokens, if nothing behind it can go on with its last one. -/
def Spells (s : String) (ts : List Token) : Prop :=
  ∀ rest, boundary rest = true → scan (s.toList ++ rest) = ts.map some ++ scan rest

/-- The text is cut into these tokens, whatever follows. -/
def Opens (s : String) (ts : List Token) : Prop :=
  ∀ rest, scan (s.toList ++ rest) = ts.map some ++ scan rest

theorem Opens.spells {s : String} {ts : List Token} (h : Opens s ts) : Spells s ts := fun rest _ => h rest

theorem Spells.append {s s' : String} {ts ts' : List Token} (h : Spells s ts) (h' : Spells s' ts')
    (hb : boundary s'.toList = true) : Spells (s ++ s') (ts ++ ts') := by
  intro rest hr
  rw [String.toList_append, List.append_assoc, h _ (boundary_append hb hr), h' rest hr, List.map_append,
    List.append_assoc]

theorem Spells.append_opens {s s' : String} {ts ts' : List Token} (h : Spells s ts) (h' : Opens s' ts')
    (hb : s'.toList.head?.any (fun c => !isNameChar c && c != '.') = true) :
    Opens (s ++ s') (ts ++ ts') := by
  intro rest
  have hboundary : boundary (s'.toList ++ rest) = true := by
    cases hs : s'.toList with
    | nil =>
      rw [hs] at hb
      cases hb
    | cons c cs =>
      rw [hs] at hb
      exact hb
  rw [String.toList_append, List.append_assoc, h _ hboundary, h' rest, List.map_append, List.append_assoc]

theorem Opens.append_spells {s s' : String} {ts ts' : List Token} (h : Opens s ts) (h' : Spells s' ts') :
    Spells (s ++ s') (ts ++ ts') := by
  intro rest hr
  rw [String.toList_append, List.append_assoc, h, h' rest hr, List.map_append, List.append_assoc]

theorem Opens.append {s s' : String} {ts ts' : List Token} (h : Opens s ts) (h' : Opens s' ts') :
    Opens (s ++ s') (ts ++ ts') := by
  intro rest
  rw [String.toList_append, List.append_assoc, h, h' rest, List.map_append, List.append_assoc]

theorem opens_nil : Opens "" [] := fun _ => rfl

theorem opens_blank {s : String} (h : s.toList.all isBlank = true) : Opens s [] := by
  intro rest
  generalize s.toList = cs at h
  induction cs with
  | nil => rfl
  | cons c cs ih =>
    rw [List.all_cons, Bool.and_eq_true] at h
    rw [List.cons_append, scan_blank h.1]
    exact ih h.2

theorem opens_symbol (s : Symbol) : Opens s.text [.symbol s] := fun rest => scan_symbol s rest

theorem spells_keyword (k : Keyword) : Spells k.text [.keyword k] := by
  intro rest hr
  have hword : isName k.text.toList = true := by cases k <;> decide
  have htoken : word k.text.toList = .keyword k := by cases k <;> decide
  rw [scan_word hword hr, htoken]
  rfl

theorem spells_ident {n : String} (h : isIdent n = true) : Spells n [.ident n] := by
  intro rest hr
  obtain ⟨hword, hk⟩ := Bool.and_eq_true_iff.mp h
  rw [Option.isNone_iff_eq_none] at hk
  rw [scan_word hword hr]
  simp [word, hk]

theorem spells_local {n : String} (h : isLocalName n = true) : Spells ("%" ++ n) [.localName n] := by
  intro rest hr
  obtain ⟨hne, hall⟩ := Bool.and_eq_true_iff.mp h
  have hscan := scan_local (w := n.toList) (by simpa using hne) hall hr
  rw [String.toList_append]
  simpa using hscan

theorem spells_global {n : String} (h : isGlobalName n = true) : Spells ("@" ++ n) [.globalName n] := by
  intro rest hr
  have hscan := scan_global h hr
  rw [String.toList_append]
  simpa using hscan

theorem spells_int {z : Int} (h : intInRange z = true) : Spells (intText z) [.int z] := by
  intro rest hr
  rw [intText, String.toList_ofList, scan_int h hr]
  rfl

theorem spells_nat {n : Nat} (h : intInRange n = true) :
    Spells (natText n) [.int n] := spells_int (z := n) h

theorem spells_joinWith {sep : String} {t : Token} (hsep : Opens sep [t])
    (hb : sep.toList.head?.any (fun c => !isNameChar c && c != '.') = true) {ss : List String}
    {tss : List (List Token)} (h : List.Forall₂ Spells ss tss) :
    Spells (joinWith sep ss) (tss.intersperse [t]).flatten := by
  induction h with
  | nil => exact opens_nil.spells
  | cons hs hrest ih =>
    cases hrest with
    | nil => simpa [joinWith] using hs
    | cons hs' hrest' =>
      have := (hs.append_opens hsep hb).append_spells ih
      simpa [joinWith, List.intersperse] using this

theorem opens_join {ss : List String} {tss : List (List Token)} (h : List.Forall₂ Opens ss tss) :
    Opens (String.join ss) tss.flatten := by
  induction h with
  | nil => exact opens_nil
  | cons hs _ ih =>
    rw [String.join_cons, List.flatten_cons]
    exact hs.append ih

end Lexer

end Stencil
