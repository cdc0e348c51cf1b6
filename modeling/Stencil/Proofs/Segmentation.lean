import Mathlib.Data.List.Pairwise
import Stencil.Proofs.Patterns

/-! Lexing loses nothing. The pieces of a source lie one behind the other and fill it, so the tokens
and the refused parts stand in order, and only blanks and comments lie between them. -/

set_option autoImplicit false

namespace Stencil

namespace Lexer

theorem byteLength_append (cs ds : List Char) :
    byteLength (cs ++ ds) = byteLength cs + byteLength ds := by
  have hshift : ∀ (ds : List Char) (n : Nat),
      ds.foldl (fun n c => n + c.utf8Size) n = n + ds.foldl (fun n c => n + c.utf8Size) 0 := by
    intro ds
    induction ds with
    | nil => exact fun n => rfl
    | cons d ds ih =>
      intro n
      rw [List.foldl_cons, List.foldl_cons, ih, ih (0 + d.utf8Size)]
      omega
  unfold byteLength
  rw [List.foldl_append, hshift]

theorem byteLength_pos {cs : List Char} (h : cs ≠ []) : 0 < byteLength cs := by
  obtain ⟨c, cs, rfl⟩ := List.exists_cons_of_ne_nil h
  have hc := c.utf8Size_pos
  have happend := byteLength_append [c] cs
  have hone : byteLength [c] = c.utf8Size := Nat.zero_add _
  rw [List.singleton_append] at happend
  omega

theorem utf8ByteSize_ofList (cs : List Char) : (String.ofList cs).utf8ByteSize = byteLength cs := by
  induction cs with
  | nil => rfl
  | cons c cs ih =>
    have happend := byteLength_append [c] cs
    have hone : byteLength [c] = c.utf8Size := Nat.zero_add _
    rw [List.singleton_append, hone, ← ih] at happend
    rw [happend, ← String.utf8ByteSize_singleton, ← String.utf8ByteSize_append,
      String.singleton_eq_ofList, ← String.ofList_append, List.singleton_append]

theorem byteLength_toList (s : String) : byteLength s.toList = s.utf8ByteSize := by
  rw [← utf8ByteSize_ofList, String.ofList_toList]

/-- The text `w` stands at the span of a source, with `rest` behind it. -/
def Occupies (source : String) (span : Span) (w rest : List Char) : Prop :=
  ∃ before, source.toList = before ++ w ++ rest ∧ span.start = byteLength before ∧
    span.stop = byteLength (before ++ w)

theorem Occupies.isValid {source : String} {span : Span} {w rest : List Char}
    (h : Occupies source span w rest) :
    String.Pos.Raw.IsValid source ⟨span.start⟩ ∧ String.Pos.Raw.IsValid source ⟨span.stop⟩ := by
  obtain ⟨before, hsource, hstart, hstop⟩ := h
  have hvalid : ∀ {front back : List Char}, source.toList = front ++ back →
      String.Pos.Raw.IsValid source ⟨byteLength front⟩ := by
    intro front back hsplit
    refine String.Pos.Raw.isValid_iff_exists_append.mpr ⟨String.ofList front, String.ofList back, ?_, ?_⟩
    · rw [← String.ofList_append, ← hsplit, String.ofList_toList]
    · rw [← utf8ByteSize_ofList]
      rfl
  rw [hstart, hstop]
  exact ⟨hvalid (hsource.trans (List.append_assoc _ _ _)), hvalid hsource⟩

theorem pieces_cons (c : Char) (cs : List Char) : ∃ rest, c :: cs = (first c cs).text ++ rest ∧
    (first c cs).text ≠ [] ∧ Justified (first c cs) rest ∧
      pieces (c :: cs) = first c cs :: pieces rest := by
  obtain ⟨rest, hsplit, hne, hjust⟩ := cutsOff_first c cs
  refine ⟨rest, hsplit, hne, hjust, ?_⟩
  rw [pieces]
  simp only [List.cons.injEq, true_and]
  congr 1
  obtain ⟨d, ds, hd⟩ := List.exists_cons_of_ne_nil hne
  rw [hd] at hsplit ⊢
  cases hsplit
  exact List.drop_left

theorem justified_of_mem_placed {cs : List Char} {start : Nat} {span : Span} {p : Piece}
    (h : (span, p) ∈ placed start (pieces cs)) :
    ∃ before rest, cs = before ++ p.text ++ rest ∧ span.start = start + byteLength before ∧
      span.stop = start + byteLength (before ++ p.text) ∧ p.text ≠ [] ∧ Justified p rest := by
  induction hn : cs.length using Nat.strongRecOn generalizing cs start with
  | ind n ih =>
    cases cs with
    | nil =>
      rw [pieces] at h
      cases h
    | cons c cs =>
      obtain ⟨rest, hsplit, hne, hjust, hpieces⟩ := pieces_cons c cs
      rw [hpieces, placed] at h
      rcases List.mem_cons.mp h with h | h
      · cases h
        exact ⟨[], rest, hsplit, by simp [byteLength], by simp, hne, hjust⟩
      · have hlen := congrArg List.length hsplit
        rw [List.length_append] at hlen
        have hpos := List.length_pos_iff.mpr hne
        obtain ⟨before, rest', rfl, hstart, hstop, hne', hjust'⟩ := ih rest.length (by omega) h rfl
        refine ⟨(first c cs).text ++ before, rest', ?_, ?_, ?_, hne', hjust'⟩
        · rw [hsplit]
          simp only [List.append_assoc]
        · rw [hstart, byteLength_append]
          omega
        · rw [hstop, byteLength_append, byteLength_append, byteLength_append]
          omega

theorem start_le_of_mem_placed {ps : List Piece} {start : Nat} {s : Span × Piece}
    (h : s ∈ placed start ps) :
    start ≤ s.1.start := by
  induction ps generalizing start with
  | nil => cases h
  | cons p ps ih =>
    rw [placed] at h
    rcases List.mem_cons.mp h with rfl | h
    · exact Nat.le_refl _
    · exact Nat.le_trans (Nat.le_add_right _ _) (ih h)

theorem placed_pairwise (ps : List Piece) (start : Nat) :
    (placed start ps).Pairwise fun a b => a.1.stop ≤ b.1.start := by
  induction ps generalizing start with
  | nil => exact .nil
  | cons p ps ih => exact .cons (fun s hs => start_le_of_mem_placed hs) (ih _)

theorem apart_of_mem_placed {ps : List Piece} {start : Nat} {s t : Span × Piece}
    (hs : s ∈ placed start ps)
    (ht : t ∈ placed start ps) (hne : s ≠ t) : s.1.stop ≤ t.1.start ∨ t.1.stop ≤ s.1.start := by
  have hsymm : Std.Symm fun a b : Span × Piece => a.1.stop ≤ b.1.start ∨ b.1.stop ≤ a.1.start :=
    ⟨fun _ _ h => h.symm⟩
  have happart : (placed start ps).Pairwise fun a b => a.1.stop ≤ b.1.start ∨ b.1.stop ≤ a.1.start :=
    (placed_pairwise ps start).imp .inl
  exact happart.forall hs ht hne

/-- The pieces fill the text. -/
theorem exists_mem_placed (cs : List Char) {start n : Nat} (hstart : start ≤ n)
    (hn : n < start + byteLength cs) :
    ∃ s ∈ placed start (pieces cs), s.1.start ≤ n ∧ n < s.1.stop := by
  induction hlength : cs.length using Nat.strongRecOn generalizing cs start with
  | ind k ih =>
    cases cs with
    | nil => exact absurd hn (Nat.not_lt.mpr hstart)
    | cons c cs =>
      obtain ⟨rest, hsplit, hne, _, hpieces⟩ := pieces_cons c cs
      rw [hpieces, placed]
      by_cases hfirst : n < start + byteLength (first c cs).text
      · exact ⟨_, List.mem_cons_self, hstart, hfirst⟩
      · have hlen := congrArg List.length hsplit
        rw [List.length_append] at hlen
        have hpos := List.length_pos_iff.mpr hne
        rw [hsplit, byteLength_append] at hn
        obtain ⟨s, hs, hin⟩ := ih rest.length (by omega) rest (Nat.not_lt.mp hfirst) (by omega) rfl
        exact ⟨s, List.mem_cons_of_mem _ hs, hin⟩

/-- The spans of the tokens and of the refused parts of a source, by position. -/
def marks (source : String) : List Span :=
  ((lex source).1.map (·.span)).merge ((lex source).2.map (·.span)) fun a b => a.start ≤ b.start

def isMark : Span × Piece → Bool
  | (_, .blank _) => false
  | _ => true

theorem perm_marks (ps : List (Span × Piece)) :
    ((ps.filterMap lexeme?).map (·.span) ++ (ps.filterMap error?).map (·.span)).Perm
      ((ps.filter isMark).map (·.1)) := by
  induction ps with
  | nil => exact .nil
  | cons s ps ih =>
    obtain ⟨span, p⟩ := s
    cases p with
    | blank w => exact ih
    | token w t => exact .cons span ih
    | refused w =>
      simp only [List.filterMap_cons, lexeme?, error?, List.map_cons, List.filter_cons, isMark, if_true]
      exact List.perm_middle.trans (.cons span ih)

theorem places_sublist {f : Span × Piece → Option Span} (hf : ∀ s x, f s = some x → x = s.1)
    (ps : List (Span × Piece)) : (ps.filterMap f).Sublist (ps.map (·.1)) := by
  induction ps with
  | nil => exact .slnil
  | cons s ps ih =>
    rw [List.filterMap_cons, List.map_cons]
    cases hs : f s with
    | none => exact .cons _ ih
    | some x =>
      cases hf s x hs
      exact ih.cons_cons _

theorem wide_of_mem_placed {cs : List Char} {start : Nat} {s : Span × Piece}
    (h : s ∈ placed start (pieces cs)) :
    s.1.start < s.1.stop := by
  obtain ⟨span, p⟩ := s
  obtain ⟨before, rest, _, hstart, hstop, hne, _⟩ := justified_of_mem_placed h
  have := byteLength_pos hne
  rw [byteLength_append] at hstop
  simp only
  omega

theorem marks_eq (source : String) :
    marks source = ((placed 0 (pieces source.toList)).filter isMark).map (·.1) := by
  have hstarts : ((placed 0 (pieces source.toList)).map (·.1)).Pairwise fun a b => a.start < b.start :=
    List.pairwise_map.mpr ((placed_pairwise _ 0).imp_of_mem fun ha _ hab =>
      Nat.lt_of_lt_of_le (wide_of_mem_placed ha) hab)
  have hsorted : ∀ {l : List Span}, l.Sublist ((placed 0 (pieces source.toList)).map (·.1)) →
      l.Pairwise fun a b => decide (a.start ≤ b.start) = true := fun hl =>
    (hstarts.sublist hl).imp fun h => decide_eq_true (Nat.le_of_lt h)
  have htokens : ((lex source).1.map (·.span)).Sublist ((placed 0 (pieces source.toList)).map (·.1)) := by
    refine List.map_filterMap ▸ places_sublist ?_ _
    rintro ⟨span, p⟩ x hx
    cases p <;> cases hx
    rfl
  have herrors : ((lex source).2.map (·.span)).Sublist ((placed 0 (pieces source.toList)).map (·.1)) := by
    refine List.map_filterMap ▸ places_sublist ?_ _
    rintro ⟨span, p⟩ x hx
    cases p <;> cases hx
    rfl
  have hmarks : (((placed 0 (pieces source.toList)).filter isMark).map (·.1)).Sublist
      ((placed 0 (pieces source.toList)).map (·.1)) := List.filter_sublist.map _
  have hperm : (marks source).Perm (((placed 0 (pieces source.toList)).filter isMark).map (·.1)) :=
    (List.merge_perm_append _).trans (perm_marks _)
  -- both lists are in order, and no two pieces start at one place
  refine List.Perm.eq_of_pairwise ?_ (List.pairwise_merge ?_ ?_ _ _ (hsorted htokens) (hsorted herrors))
    (hsorted hmarks) hperm
  · intro a b ha hb hab hba
    obtain ⟨s, hs, rfl⟩ := List.mem_map.mp (hmarks.subset (hperm.subset ha))
    obtain ⟨t, ht, rfl⟩ := List.mem_map.mp (hmarks.subset hb)
    by_contra hne
    have hs' := wide_of_mem_placed hs
    have ht' := wide_of_mem_placed ht
    have hstart := Nat.le_antisymm (of_decide_eq_true hab) (of_decide_eq_true hba)
    rcases apart_of_mem_placed hs ht (fun h => hne (congrArg Prod.fst h)) with h | h <;> omega
  · intro a b c hab hbc
    exact decide_eq_true (Nat.le_trans (of_decide_eq_true hab) (of_decide_eq_true hbc))
  · intro a b
    simpa using Nat.le_total a.start b.start

theorem occupies_of_mem_placed {source : String} {span : Span} {p : Piece}
    (h : (span, p) ∈ placed 0 (pieces source.toList)) :
    ∃ rest, Occupies source span p.text rest ∧ Justified p rest := by
  obtain ⟨before, rest, hsource, hstart, hstop, _, hjust⟩ := justified_of_mem_placed h
  exact ⟨rest, ⟨before, hsource, by omega, by omega⟩, hjust⟩

theorem mem_marks {source : String} {s : Span} :
    s ∈ marks source ↔ ∃ p, (s, p) ∈ placed 0 (pieces source.toList) ∧ isMark (s, p) = true := by
  rw [marks_eq]
  constructor
  · intro h
    obtain ⟨⟨s, p⟩, hp, rfl⟩ := List.mem_map.mp h
    exact ⟨p, List.mem_filter.mp hp⟩
  · rintro ⟨p, hp⟩
    exact List.mem_map.mpr ⟨(s, p), List.mem_filter.mpr hp, rfl⟩

theorem exists_gap {source : String} {n : Nat} (hn : n < source.utf8ByteSize)
    (hfree : ∀ s ∈ marks source, ¬ (s.start ≤ n ∧ n < s.stop)) :
    ∃ gap w rest, Occupies source gap w rest ∧ IsGap w rest ∧ gap.start ≤ n ∧ n < gap.stop ∧
      ∀ s ∈ marks source, s.stop ≤ gap.start ∨ gap.stop ≤ s.start := by
  rw [← byteLength_toList] at hn
  obtain ⟨⟨gap, p⟩, hp, hfrom, hto⟩ := exists_mem_placed source.toList (Nat.zero_le n) (by omega)
  obtain ⟨rest, hocc, hjust⟩ := occupies_of_mem_placed hp
  have hblank : ¬ isMark (gap, p) = true :=
    fun hmark => hfree gap (mem_marks.mpr ⟨p, hp, hmark⟩) ⟨hfrom, hto⟩
  cases p with
  | token w t => exact absurd rfl hblank
  | refused w => exact absurd rfl hblank
  | blank w =>
    refine ⟨gap, w, rest, hocc, hjust, hfrom, hto, ?_⟩
    intro s hs
    obtain ⟨q, hq, hmark⟩ := mem_marks.mp hs
    have hne : (gap, Piece.blank w) ≠ (s, q) := by
      rintro heq
      cases heq
      cases hmark
    exact (apart_of_mem_placed hp hq hne).symm

/-- Lexing loses nothing. The tokens and the refused parts of a source stand one behind the other, on
character boundaries, and each takes something of the source. What lies between them is blank or a
comment up to the end of its line. Every token is the longest text at its place that matches a pattern,
where a keyword goes before an identifier, and is what the pattern makes of that text. A part is refused
when it is a character at which no pattern matches, or an integer that is out of range. -/
theorem lexing_loses_nothing (source : String) :
    (∀ s ∈ marks source, s.start < s.stop ∧ s.stop ≤ source.utf8ByteSize ∧
      String.Pos.Raw.IsValid source ⟨s.start⟩ ∧ String.Pos.Raw.IsValid source ⟨s.stop⟩) ∧
    (marks source).Pairwise (fun a b => a.stop ≤ b.start) ∧
    (∀ n, n < source.utf8ByteSize → (∀ s ∈ marks source, ¬ (s.start ≤ n ∧ n < s.stop)) →
      ∃ gap w rest, Occupies source gap w rest ∧ IsGap w rest ∧ gap.start ≤ n ∧ n < gap.stop ∧
        ∀ s ∈ marks source, s.stop ≤ gap.start ∨ gap.stop ≤ s.start) ∧
    (∀ l ∈ (lex source).1, ∃ q w rest, Occupies source l.span w rest ∧ Munches q w (w ++ rest) ∧
      q.token? w = some l.token) ∧
    (∀ e ∈ (lex source).2, ∃ rest, Occupies source e.span e.text rest ∧
      ((∃ c, e.text = [c]) ∧ Unmatched (e.text ++ rest) ∨
        ∃ q, Munches q e.text (e.text ++ rest) ∧ q.token? e.text = none)) := by
  refine ⟨?_, ?_, fun n => exists_gap, ?_, ?_⟩
  · intro s hs
    obtain ⟨p, hp, _⟩ := mem_marks.mp hs
    obtain ⟨rest, hocc, _⟩ := occupies_of_mem_placed hp
    exact ⟨wide_of_mem_placed hp, hocc.isValid.2.le_utf8ByteSize, hocc.isValid⟩
  · rw [marks_eq]
    exact List.pairwise_map.mpr ((placed_pairwise _ 0).sublist List.filter_sublist)
  · intro l hl
    obtain ⟨⟨span, p⟩, hp, hl⟩ := List.mem_filterMap.mp hl
    obtain ⟨rest, hocc, hjust⟩ := occupies_of_mem_placed hp
    cases p <;> cases hl
    obtain ⟨q, hq⟩ := hjust
    exact ⟨q, _, rest, hocc, hq⟩
  · intro e he
    obtain ⟨⟨span, p⟩, hp, he⟩ := List.mem_filterMap.mp he
    obtain ⟨rest, hocc, hjust⟩ := occupies_of_mem_placed hp
    cases p <;> cases he
    exact ⟨rest, hocc, hjust⟩

end Lexer

end Stencil
