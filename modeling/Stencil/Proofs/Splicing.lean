import Stencil.Body.Splice
import Stencil.Proofs.Performing

/-! Splicing: a body in which an access has given way to the operations of a producer computes what
it computed when the access read the producer's value. -/

set_option autoImplicit false

namespace Stencil

theorem eq_append_of_getElem? {β : Type} {xs : List β} {pos : Nat} {x : β} (h : xs[pos]? = some x) :
    xs = xs.take pos ++ x :: xs.drop (pos + 1) := by
  obtain ⟨hlt, rfl⟩ := List.getElem?_eq_some_iff.mp h
  rw [List.getElem_cons_drop, List.take_append_drop]

theorem exists_append_of_getElem? {β : Type} {xs : List β} {i : Nat} {a : β} (h : xs[i]? = some a) :
    ∃ front back, xs = front ++ a :: back ∧ front.length = i := by
  have hlt := (List.getElem?_eq_some_iff.mp h).1
  exact ⟨xs.take i, xs.drop (i + 1), eq_append_of_getElem? h, by simp; omega⟩

theorem getElem?_take_append_drop {β : Type} {xs ys : List β} {pos : Nat} (h : pos < xs.length)
    (g : β → β) (i : Nat) :
    (xs.take pos ++ ys ++ (xs.drop (pos + 1)).map g)[i]? =
      if i < pos then xs[i]?
      else if i < pos + ys.length then ys[i - pos]?
      else (xs[i - ys.length + 1]?).map g := by
  have hpre : (xs.take pos).length = pos := by simp; omega
  split
  · rename_i hi
    rw [List.append_assoc, List.getElem?_append_left (by omega), List.getElem?_take_of_lt hi]
  · rename_i hi
    split
    · rename_i hn
      rw [List.getElem?_append_left (by simp; omega), List.getElem?_append_right (by omega), hpre]
    · rename_i hn
      rw [List.getElem?_append_right (by simp; omega), List.getElem?_map, List.getElem?_drop]
      have hidx : pos + 1 + (i - (xs.take pos ++ ys).length) = i - ys.length + 1 := by
        rw [List.length_append, hpre]
        omega
      rw [hidx]

namespace Body

theorem innerOp_eq_access_iff {pos : Nat} {offset : Offset} {slots : List Nat} {op : Op} {s : Nat}
    {o : Offset} : innerOp pos offset slots op = .access s o ↔
      ∃ s' o', op = .access s' o' ∧ s = (slots[s']?).getD s' ∧ o = o'.compose offset := by
  rw [innerOp, Op.mapArgs_eq_access_iff, Op.mapSlot_eq_access_iff]
  constructor
  · rintro ⟨s', he, hs⟩
    cases op with
    | access s'' o' =>
      simp only [Op.shifted, Op.access.injEq] at he
      exact ⟨s'', o', rfl, by rw [he.1, hs], he.2.symm⟩
    | index d o' => simp [Op.shifted] at he
    | constant c => simp [Op.shifted] at he
    | unary g a => simp [Op.shifted] at he
    | binary g l r => simp [Op.shifted] at he
    | call c as q => simp [Op.shifted] at he
  · rintro ⟨s', o', rfl, rfl, rfl⟩
    exact ⟨s', rfl, rfl⟩

section Parts

variable {b inner : Body} {pos slot result : Nat} {offset : Offset} {slots : List Nat}

theorem splice_ops (h : b.ops[pos]? = some (.access slot offset)) :
    (b.splice pos inner result slots).ops =
      b.ops.take pos ++ inner.ops.map (innerOp pos offset slots) ++
        (b.ops.drop (pos + 1)).map (Op.mapArgs (outerName pos inner.ops.length result)) := by
  simp [splice, h]

theorem splice_values (h : b.ops[pos]? = some (.access slot offset)) :
    (b.splice pos inner result slots).ret.values =
      b.ret.values.map (outerName pos inner.ops.length result) := by
  simp [splice, h]

@[simp] theorem splice_unroll : (b.splice pos inner result slots).ret.unroll = b.ret.unroll := by
  unfold splice
  split <;> rfl

theorem length_splice_ops (h : b.ops[pos]? = some (.access slot offset)) :
    (b.splice pos inner result slots).ops.length + 1 = b.ops.length + inner.ops.length := by
  have hlt := (List.getElem?_eq_some_iff.mp h).1
  rw [splice_ops h]
  simp only [List.length_append, List.length_take, List.length_map, List.length_drop]
  omega

theorem getElem?_splice_ops (h : b.ops[pos]? = some (.access slot offset)) (i : Nat) :
    (b.splice pos inner result slots).ops[i]? =
      if i < pos then b.ops[i]?
      else if i < pos + inner.ops.length then (inner.ops[i - pos]?).map (innerOp pos offset slots)
      else (b.ops[i - inner.ops.length + 1]?).map
        (Op.mapArgs (outerName pos inner.ops.length result)) := by
  rw [splice_ops h, getElem?_take_append_drop (List.getElem?_eq_some_iff.mp h).1, List.length_map,
    List.getElem?_map]

theorem access_mem_splice_ops (h : b.ops[pos]? = some (.access slot offset)) {s : Nat} {o : Offset} :
    .access s o ∈ (b.splice pos inner result slots).ops ↔
      (∃ i, i ≠ pos ∧ b.ops[i]? = some (.access s o)) ∨
        ∃ s' o', .access s' o' ∈ inner.ops ∧ s = (slots[s']?).getD s' ∧ o = o'.compose offset := by
  have hlt := (List.getElem?_eq_some_iff.mp h).1
  constructor
  · intro hm
    obtain ⟨i, hi⟩ := List.mem_iff_getElem?.mp hm
    rw [getElem?_splice_ops h] at hi
    split at hi
    · rename_i hip
      exact .inl ⟨i, by omega, hi⟩
    · split at hi
      · obtain ⟨op, hop, he⟩ := Option.map_eq_some_iff.mp hi
        obtain ⟨s', o', rfl, hs, ho⟩ := innerOp_eq_access_iff.mp he
        exact .inr ⟨s', o', List.mem_of_getElem? hop, hs, ho⟩
      · rename_i hip hin
        obtain ⟨op, hop, he⟩ := Option.map_eq_some_iff.mp hi
        rw [Op.mapArgs_eq_access_iff] at he
        subst he
        exact .inl ⟨i - inner.ops.length + 1, by omega, hop⟩
  · rw [splice_ops h]
    rintro (⟨i, hne, hi⟩ | ⟨s', o', hm, hs, ho⟩)
    · by_cases hip : i < pos
      · apply List.mem_append_left
        apply List.mem_append_left
        exact List.mem_of_getElem? (by rw [List.getElem?_take_of_lt hip]; exact hi)
      · apply List.mem_append_right
        rw [List.mem_map]
        refine ⟨.access s o, ?_, rfl⟩
        have hidx : pos + 1 + (i - (pos + 1)) = i := by omega
        have hdrop : (b.ops.drop (pos + 1))[i - (pos + 1)]? = some (.access s o) := by
          rw [List.getElem?_drop, hidx, hi]
        exact List.mem_of_getElem? hdrop
    · apply List.mem_append_left
      apply List.mem_append_right
      rw [List.mem_map]
      exact ⟨.access s' o', hm, innerOp_eq_access_iff.mpr ⟨s', o', rfl, hs, ho⟩⟩

theorem fits_innerOp {op : Op} {rank slotCount innerCount : Nat} (hop : op.Fits rank innerCount)
    (ho : offset.length = rank)
    (hs : ∀ s, s < innerCount → (slots[s]?).getD s < slotCount) :
    (innerOp pos offset slots op).Fits rank slotCount := by
  rw [innerOp, Op.fits_mapArgs]
  cases op with
  | access s o => exact ⟨Offset.length_compose hop.1 ho, hs s hop.2⟩
  | index d o => exact ⟨hop.1, Offset.length_compose hop.2 ho⟩
  | constant c => trivial
  | unary f a => trivial
  | binary f l r => trivial
  | call c as q => trivial

theorem outerName_of_lt {n v : Nat} (h : v < pos) : outerName pos n result v = v := by
  simp [outerName, h]

theorem outerName_self (n : Nat) : outerName pos n result pos = pos + result := by simp [outerName]

theorem outerName_of_gt {n v : Nat} (h : pos < v) : outerName pos n result v = v + n - 1 := by
  have hlt : ¬ v < pos := by omega
  have hne : ¬ v = pos := by omega
  simp [outerName, hlt, hne]

theorem outerName_lt {n v bound : Nat} (hr : result < n) (hv : v < bound) (hp : pos < bound) :
    outerName pos n result v < bound + n - 1 := by
  rcases Nat.lt_trichotomy v pos with h | h | h
  · have hlt : v < bound + n - 1 := by omega
    rwa [outerName_of_lt h]
  · have hlt : pos + result < bound + n - 1 := by omega
    rwa [h, outerName_self]
  · have hlt : v + n - 1 < bound + n - 1 := by omega
    rwa [outerName_of_gt h]

theorem getElem?_outerName {α : Type} {before within : Array α} {x : α} (hb : before.size = pos)
    (hx : within[result]? = some x) (new : Array α) (v : Nat) :
    (before ++ within ++ new)[outerName pos within.size result v]? = (before.push x ++ new)[v]? := by
  have hr : result < within.size := (Array.getElem?_eq_some_iff.mp hx).1
  rcases Nat.lt_trichotomy v pos with h | h | h
  · rw [outerName_of_lt h, Array.append_assoc, Array.getElem?_append_left (by omega),
      Array.getElem?_append_left (by simp; omega), Array.getElem?_push, if_neg (by omega)]
  · rw [h, outerName_self, Array.append_assoc, Array.getElem?_append_right (by omega), hb,
      Nat.add_sub_cancel_left, Array.getElem?_append_left hr, hx,
      Array.getElem?_append_left (by simp; omega), Array.getElem?_push, if_pos hb.symm]
  · rw [outerName_of_gt h, Array.getElem?_append_right (by simp; omega),
      Array.getElem?_append_right (by simp; omega)]
    congr 1
    simp only [Array.size_append, Array.size_push]
    omega

theorem fits_splice (h : b.ops[pos]? = some (.access slot offset)) {rank slotCount innerCount : Nat}
    (hb : b.Fits rank slotCount) (hi : inner.Fits rank innerCount) (hr : result < inner.ops.length)
    (hs : ∀ s, s < innerCount → (slots[s]?).getD s < slotCount) :
    (b.splice pos inner result slots).Fits rank slotCount := by
  have hlt := (List.getElem?_eq_some_iff.mp h).1
  have ho : offset.length = rank := (hb.ops _ (List.mem_of_getElem? h)).1
  constructor
  · intro op hop
    rw [splice_ops h, List.mem_append, List.mem_append] at hop
    rcases hop with (hop | hop) | hop
    · exact hb.ops op (List.mem_of_mem_take hop)
    · obtain ⟨op', hop', rfl⟩ := List.mem_map.mp hop
      exact fits_innerOp (hi.ops op' hop') ho hs
    · obtain ⟨op', hop', rfl⟩ := List.mem_map.mp hop
      exact Op.fits_mapArgs.mpr (hb.ops op' (List.mem_of_mem_drop hop'))
  · intro i op hop a ha
    rw [getElem?_splice_ops h] at hop
    split at hop
    · exact hb.args i op hop a ha
    · split at hop
      · rename_i hip hin
        obtain ⟨op', hop', rfl⟩ := Option.map_eq_some_iff.mp hop
        simp only [innerOp, Op.args_mapArgs, Op.args_mapSlot, Op.args_shifted, List.mem_map] at ha
        obtain ⟨x, hx, rfl⟩ := ha
        have hx' : x < i - pos := hi.args _ _ hop' x hx
        exact Nat.lt_of_lt_of_eq (Nat.add_lt_add_left hx' pos) (by omega)
      · rename_i hip hin
        obtain ⟨op', hop', rfl⟩ := Option.map_eq_some_iff.mp hop
        simp only [Op.args_mapArgs, List.mem_map] at ha
        obtain ⟨x, hx, rfl⟩ := ha
        have hx' : x < i - inner.ops.length + 1 := hb.args _ _ hop' x hx
        have hpos : pos < i - inner.ops.length + 1 := by omega
        have hlt' := outerName_lt hr hx' hpos
        exact Nat.lt_of_lt_of_eq hlt' (by omega)
  · intro v hv
    rw [splice_values h] at hv
    obtain ⟨x, hx, rfl⟩ := List.mem_map.mp hv
    have hx' : x < b.ops.length := hb.ret x hx
    have hlt' := outerName_lt hr hx' hlt
    have hlen : (b.splice pos inner result slots).ops.length + 1 = b.ops.length + inner.ops.length :=
      length_splice_ops h
    exact Nat.lt_of_lt_of_eq hlt' (by omega)

theorem effects_splice (h : b.ops[pos]? = some (.access slot offset)) :
    (b.splice pos inner result slots).effects = b.effects + inner.effects := by
  have hb : b.effects = ((b.ops.take pos).filter Op.hasEffect).length +
      ((b.ops.drop (pos + 1)).filter Op.hasEffect).length := by
    have hops := congrArg (fun ops => (ops.filter Op.hasEffect).length) (eq_append_of_getElem? h)
    simpa [effects, Op.hasEffect] using hops
  rw [hb, effects, effects, splice_ops h, List.filter_append, List.filter_append, List.length_append,
    List.length_append, Op.length_filter_hasEffect_map (by intro op; simp [innerOp]),
    Op.length_filter_hasEffect_map (by intro op; simp)]
  omega

end Parts

section Activity

variable {α : Type} {m : Type → Type} [Monad m] {A : Arithmetic α} {ask : Asker m α} {point : Point}
variable {b inner : Body} {pos slot result : Nat} {offset : Offset} {slots : List Nat}

theorem performOp_innerOp {op : Op} {vs ws : Array α} (hargs : ∀ a, a ∈ op.args → ws[pos + a]? = vs[a]?) :
    performOp A ask point ws (innerOp pos offset slots op) =
      performOp A (fun s q => ask ((slots[s]?).getD s) q) (List.zipWith (· + ·) point offset) vs op := by
  have hargs' : ∀ a, a ∈ ((op.shifted offset).mapSlot fun s => (slots[s]?).getD s).args →
      ws[pos + a]? = vs[a]? := by simpa using hargs
  rw [innerOp, performOp_mapArgs hargs']
  cases op with
  | access s o => exact congrArg (ask _) (zipWith_compose point o offset)
  | index d o =>
    apply congrArg given
    rw [← evalOp_shifted offset]
    rfl
  | constant c => rfl
  | unary f a => rfl
  | binary f l r => rfl
  | call c as q => rfl

variable [LawfulMonad m]

/-- A body in which an access is answered: it is performed up to the access, and behind it with the
answer. -/
theorem perform_answeredAt (h : b.ops[pos]? = some (.access slot offset))
    (answer : ExceptT EvalError m α) :
    perform A ask (answeredAt pos answer) b point = (do
      let before ← performOps A ask unanswered point (b.ops.take pos) #[]
      let v ← answer
      let values ← performOps A ask unanswered point (b.ops.drop (pos + 1)) (before.push v)
      given (b.ret.values.mapM fun v => need values[v]?)) := by
  have hlt := (List.getElem?_eq_some_iff.mp h).1
  have hops := congrArg (fun ops => performOps A ask (answeredAt pos answer) point ops #[])
    (eq_append_of_getElem? h)
  simp only [performOps_append] at hops
  rw [perform, hops, bind_assoc, performOps_of_unanswered]
  · apply performOps_bind_congr
    intro before hsize
    have hpos : (#[] ++ before).size = pos := by
      simp [hsize]
      omega
    simp only [performOps, answeredAt, hpos, if_true, Option.getD_some, bind_assoc]
    congr 1
    funext v
    rw [performOps_of_unanswered]
    intro i _
    have hne : ¬ ((#[] ++ before).push v).size + i = pos := by
      rw [Array.size_push, hpos]
      omega
    exact if_neg hne
  · intro i hi
    have hne : ¬ (#[] : Array α).size + i = pos := by
      simp at hi ⊢
      omega
    exact if_neg hne

/-- A spliced body is performed as the body is, with the producer performed in place of the access. -/
theorem perform_splice (h : b.ops[pos]? = some (.access slot offset)) (hr : result < inner.ops.length) :
    perform A ask unanswered (b.splice pos inner result slots) point =
      perform A ask (answeredAt pos (inner.performValue A (fun s q => ask ((slots[s]?).getD s) q)
        (List.zipWith (· + ·) point offset) result)) b point := by
  have hlt := (List.getElem?_eq_some_iff.mp h).1
  rw [perform_answeredAt h, perform, splice_ops h, splice_values h, performOps_append, performOps_append,
    bind_assoc, bind_assoc]
  apply performOps_bind_congr
  intro before hsize
  rw [Array.empty_append]
  have hpos : before.size = pos := by
    simp at hsize
    omega
  rw [performValue, bind_assoc]
  apply performOps_rename (f := fun v => pos + v)
  · intro op _ vs ws hargs
    exact performOp_innerOp hargs
  · intro v
    rw [Array.getElem?_eq_none (by omega)]
    simp
  · intro k
    simp [hpos]
  · intro within hn
    have hv : within[result]? = some within[result] := Array.getElem?_eq_getElem (by omega)
    rw [Array.empty_append, hv, need, given_ok_bind]
    -- behind the access each value has its new name, and the new values follow on both sides
    apply performOps_rename (f := outerName pos inner.ops.length result)
    · intro op _ vs ws hargs
      exact performOp_mapArgs hargs
    · intro v
      simpa [hn] using getElem?_outerName hpos hv #[] v
    · intro k
      have hgt : pos < (before.push within[result]).size + k := by
        simp
        omega
      rw [outerName_of_gt hgt, Array.size_push, Array.size_append]
      omega
    · intro new _
      rw [List.mapM_map]
      congr 1
      apply mapM_need_congr
      intro v _
      simpa [hn] using getElem?_outerName hpos hv new v

end Activity

section Meaning

variable {α : Type} {A : Arithmetic α} {read read' readInner : Reader α} {point : Point}
variable {b inner : Body} {pos slot result : Nat} {offset : Offset} {slots : List Nat}

theorem eval_at_access (h : b.ops[pos]? = some (.access slot offset)) :
    b.eval A read point = (do
      let before ← evalOps A read point (b.ops.take pos) #[]
      let v ← read slot (List.zipWith (· + ·) point offset)
      let values ← evalOps A read point (b.ops.drop (pos + 1)) (before.push v)
      b.ret.values.mapM fun v => need values[v]?) := by
  have hops := congrArg (fun ops => evalOps A read point ops #[]) (eq_append_of_getElem? h)
  simp only [evalOps_append, evalOps] at hops
  rw [eval, hops]
  cases evalOps A read point (b.ops.take pos) #[] with
  | error e => rfl
  | ok before =>
    rw [ok_bind, ok_bind, evalOp]
    cases read slot (List.zipWith (· + ·) point offset) with
    | error e => rfl
    | ok v => rfl

theorem eval_splice (h : b.ops[pos]? = some (.access slot offset)) (hr : result < inner.ops.length) :
    (b.splice pos inner result slots).eval A read point = (do
      let before ← evalOps A read point (b.ops.take pos) #[]
      let within ← evalOps A (fun s q => read ((slots[s]?).getD s) q)
        (List.zipWith (· + ·) point offset) inner.ops #[]
      let v ← need within[result]?
      let values ← evalOps A read point (b.ops.drop (pos + 1)) (before.push v)
      b.ret.values.mapM fun v => need values[v]?) := by
  have hsplice : perform (m := Id) A (fun s q => given (read s q)) unanswered
      (b.splice pos inner result slots) point = _ := perform_splice h hr
  rw [perform_given, perform_answeredAt h, performValue] at hsplice
  simp only [performOps_given, given_bind, bind_assoc] at hsplice
  exact given_inj hsplice

theorem eval_splice_of_eval (h : b.ops[pos]? = some (.access slot offset))
    (hr : result < inner.ops.length)
    {rs : List α} (hb : b.eval A read point = .ok rs) {within : Array α}
    (hwithin : evalOps A readInner (List.zipWith (· + ·) point offset) inner.ops #[] = .ok within)
    (hvalue : ∀ v, read slot (List.zipWith (· + ·) point offset) = .ok v → within[result]? = some v)
    (houter : ∀ s q v, (∃ o, .access s o ∈ b.ops) → read s q = .ok v → read' s q = .ok v)
    (hinner : ∀ s q v, (∃ o, .access s o ∈ inner.ops) → readInner s q = .ok v →
      read' ((slots[s]?).getD s) q = .ok v) :
    (b.splice pos inner result slots).eval A read' point = .ok rs := by
  rw [eval_at_access h] at hb
  obtain ⟨before, hbefore, hb⟩ := bind_eq_ok_iff.mp hb
  obtain ⟨v, hv, hb⟩ := bind_eq_ok_iff.mp hb
  obtain ⟨values, hvalues, hb⟩ := bind_eq_ok_iff.mp hb
  have hbefore' : evalOps A read' point (b.ops.take pos) #[] = .ok before := by
    apply evalOps_mono_read _ hbefore
    rintro s q x ⟨o, hm⟩ hx
    exact houter s q x ⟨o, List.mem_of_mem_take hm⟩ hx
  have hvalues' : evalOps A read' point (b.ops.drop (pos + 1)) (before.push v) = .ok values := by
    apply evalOps_mono_read _ hvalues
    rintro s q x ⟨o, hm⟩ hx
    exact houter s q x ⟨o, List.mem_of_mem_drop hm⟩ hx
  have hwithin' : evalOps A (fun s q => read' ((slots[s]?).getD s) q)
      (List.zipWith (· + ·) point offset) inner.ops #[] = .ok within :=
    evalOps_mono_read hinner hwithin
  rw [eval_splice h hr, hbefore', ok_bind, hwithin', ok_bind, hvalue v hv]
  simp only [need, ok_bind, hvalues']
  exact hb

end Meaning

/-- Splicing is exact. Whatever reading does besides, the spliced body acts at any point as the body
does when its access is answered by the producer: all operations of the producer are performed at
the point that the access reads, with their slots renamed, and the value is taken. So the spliced
body has the same values or the same first failure, and issues the same reads in the same order. The
value has to be one that the producer defines, as those that a valid body returns are; nothing else
is asked of the two bodies. -/
theorem spliced_activity_exact {α : Type} {b inner : Body} {pos slot result : Nat} {offset : Offset}
    (h : b.ops[pos]? = some (.access slot offset)) (hr : result < inner.ops.length) (slots : List Nat)
    (A : Arithmetic α) (p : Point) :
    (∀ (m : Type → Type) [Monad m] [LawfulMonad m] (ask : Asker m α),
      perform A ask unanswered (b.splice pos inner result slots) p =
        perform A ask (answeredAt pos (inner.performValue A (fun s q => ask ((slots[s]?).getD s) q)
          (List.zipWith (· + ·) p offset) result)) b p) ∧
    ∀ read : Reader α,
      ((b.splice pos inner result slots).eval A read p,
        (b.splice pos inner result slots).reads A read p) =
        outcome (perform A (logged read)
          (answeredAt pos (inner.performValue A (fun s q => logged read ((slots[s]?).getD s) q)
            (List.zipWith (· + ·) p offset) result)) b p) := by
  refine ⟨fun m _ _ ask => perform_splice h hr, ?_⟩
  intro read
  rw [← outcome_perform_logged, perform_splice h hr]

/-- Twice what is read two points further on. -/
def doubled : Body := .ofOps [.constant Scalar.zero, .access 0 [2], .binary .mul 0 1] [2]

/-- The difference of two neighbours, each of an array of its own. -/
def difference : Body := .ofOps [.access 0 [-1], .access 1 [1], .binary .sub 0 1] [2]

def integers : Arithmetic Int where
  ofScalar _ := 2
  ofCoordinate z := z
  unary _ x := -x
  binary op x y := if op = .mul then x * y else x - y
  builtin _ xs := xs.headD 0

theorem spliced_activity_exact_doubled :
    doubled.ops[1]? = some (.access 0 [2]) ∧ 2 < difference.ops.length ∧
      (doubled.splice 1 difference 2 [3, 1]).eval integers (fun s q => .ok (s * 10 + coord q 0)) [5] =
        .ok [36] ∧
      (doubled.splice 1 difference 2 [3, 1]).reads integers (fun s q => .ok (s * 10 + coord q 0)) [5] =
        [(3, [6]), (1, [8])] ∧
      -- a reader that gives the number of the question for an answer
      (perform integers (fun _ _ => do modify (· + 1); return (← get)) unanswered
        (doubled.splice 1 difference 2 [3, 1]) [5] :
        ExceptT EvalError (StateM Int) (List Int)).run.run 7 =
          (.ok [-2], 9) := by
  have hget : doubled.ops[1]? = some (.access 0 [2]) := rfl
  have hlt : 2 < difference.ops.length := by decide
  obtain ⟨hask, hread⟩ := spliced_activity_exact hget hlt [3, 1] integers [5]
  have hboth := hread fun s q => .ok (s * 10 + coord q 0)
  rw [hask]
  exact ⟨hget, hlt, congrArg Prod.fst hboth, congrArg Prod.snd hboth, rfl⟩

end Body

end Stencil
