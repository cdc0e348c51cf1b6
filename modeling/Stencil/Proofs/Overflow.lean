import Stencil.Proofs.Coordinates
import Stencil.Proofs.Coverage

/-! Inference does not overflow. A visit moves boxes by one offset, so coordinates grow by at most
the largest offset with every region on the way. What an unrolled region fills up beyond its demand
is not passed on: its base points all lie in the box that was demanded of it. -/

set_option autoImplicit false

namespace Stencil

namespace Inference

/-- Demands are within `c`, and what regions compute exceeds that by a group at most. -/
structure Tame (f : Func) (c : Int) : Prop where
  temp : ∀ t x, f.temp? t = some x → x.shape.Within c
  region : ∀ id r, f.region? id = some r → r.shape.Within (c + 4294967295)

theorem Tame.demand {f : Func} {c : Int} (h : Tame f c) (hc : 0 ≤ c) (r : Region) :
    (demand f r).Within c := by
  have hfold : ∀ (temps : List Temporary) (s : Shape), s.Within c → (∀ x, x ∈ temps → x.shape.Within c) →
      (temps.foldl (fun s t => s.join t.shape) s).Within c := by
    intro temps
    induction temps with
    | nil => exact fun s hs _ => hs
    | cons x temps ih =>
      intro s hs hx
      exact ih _ (hs.join (hx x List.mem_cons_self) hc) fun y hy => hx y (List.mem_cons_of_mem _ hy)
  refine hfold _ _ (Shape.within_unknown c) ?_
  intro x hx
  obtain ⟨t, _, ht⟩ := List.mem_filterMap.mp hx
  exact h.temp t x ht

/-- The bound on demands when that many regions have been visited. -/
def reach (visited : Nat) : Int := (visited + 1) * maxCoord

theorem reach_nonneg (n : Nat) : 0 ≤ reach n := Int.mul_nonneg (by omega) (by decide)

theorem reach_succ (n : Nat) : reach (n + 1) = reach n + maxCoord := by
  rw [reach, reach, Int.natCast_succ, Int.add_mul (n + 1), Int.one_mul]

theorem reach_le_roomy {n : Nat} (hn : n ≤ Nat.pow 2 28) : reach n + 4294967295 ≤ Machine.roomy := by
  have hpow : Nat.pow 2 28 = 268435456 := rfl
  have hmax : maxCoord = 2147483647 := rfl
  rw [reach, hmax, Machine.roomy]
  omega

theorem tame_seed {f : Func} (hb : f.Bounded) (queue : List RegionId) :
    Tame (seed f queue).func (reach 0) := by
  have hseed := grows_seed f queue
  refine ⟨?_, ?_⟩
  · intro t x hx
    rw [hseed.temp, Func.temp?_clearShapes, Option.map_map, Option.map_eq_some_iff] at hx
    obtain ⟨y, _, rfl⟩ := hx
    refine (Shape.within_unknown _).foldl_grow ?_ (reach_nonneg 0)
    intro b hmark
    obtain ⟨o, ho, rfl⟩ := List.mem_map.mp hmark
    exact (Box.within_of_wellFormed (hb.output o (List.mem_filter.mp ho).1)).mono (by decide)
  · intro id r hr
    rw [hseed.region, Func.region?_clearShapes, Option.map_eq_some_iff] at hr
    obtain ⟨r', _, rfl⟩ := hr
    exact Shape.within_unknown _

/-- A visit adds one offset at most to what was demanded so far. -/
theorem Tame.visited {p s : Progress} {id : RegionId} {r : Region} {n : Nat} {required : Box} {c : Int}
    (h : Tame p.func c) (hc : 0 ≤ c) (hr : r.Modest) (hfit : r.Fits n) (hranked : required.Ranked n)
    (hwithin : required.Within c)
    (hv : Visited p s id { r with shape := .known (r.computedDomain required) }) :
    Tame s.func (c + maxCoord) := by
  have hmax : (0 : Int) ≤ maxCoord := by decide
  have hreads : ∀ o box, box ∈ Region.readsOf { r with shape := .known (r.computedDomain required) } o →
      box.Within (c + maxCoord) := by
    intro o box hbox
    obtain ⟨domain, b, base, slot, q, hshape, hrun, hop, _, rfl⟩ := Region.mem_readsOf.mp hbox
    cases hshape
    have hbase := Region.within_of_mem_runs_computedDomain hfit hranked hwithin hc hrun
    exact hbase.shifted hc (hr.offsets b _ (Region.mem_bodies_of_mem_runs hrun) hop)
  refine ⟨?_, ?_⟩
  · intro t x hx
    rw [hv.temp, Option.map_eq_some_iff] at hx
    obtain ⟨y, hy, rfl⟩ := hx
    exact ((h.temp t y hy).mono (by omega)).foldl_grow (hreads _) (by omega)
  · intro id' r' hr'
    rw [hv.region] at hr'
    split at hr'
    · cases hr'
      intro b hb
      cases hb
      have hpow : Nat.pow 2 32 = 4294967296 := rfl
      refine (Region.within_computedDomain hwithin hc (k := 4294967295) ?_ (by omega)).mono (by omega)
      intro u hu
      have hfactor := hr.factor u hu
      omega
    · exact (h.region id' r' hr').mono (by omega)

end Inference

theorem Func.modest_of_sameStructure {f g : Func} (h : f.SameStructure g) (hf : f.Sound)
    (hrange : f.InRange)
    (hfactor : ∀ id r u, f.region? id = some r → r.unroll = some u → u.factor < Nat.pow 2 32)
    {id : RegionId} {r : Region} (hr : g.region? id = some r) : r.Modest := by
  obtain ⟨r', s, hr', rfl⟩ := h.exists_region hr
  exact ⟨fun b op hb hop => hrange id r' b op hr' hb hop, fun u hu => ((hf.fits id r' hr').unroll u hu).2,
    fun u hu => hfactor id r' u hr' hu⟩

namespace Inference

/-- The propagation has visited some regions of the order, and its demands are within the bound for
that. -/
def Tracked (f : Func) (order : List RegionId) (p : Progress) : Prop :=
  ∃ done todo, Reached f order done todo p ∧ Tame p.func (reach done.length)

section Faithful

variable {f : Func} {order : List RegionId} (hf : f.Sound) (hord : f.Ordered order) (hrange : f.InRange)
  (hfactor : ∀ id r u, f.region? id = some r → r.unroll = some u → u.factor < Nat.pow 2 32)
  (hlive : order.length ≤ Nat.pow 2 28) {M : Machine} (hM : M.Faithful)
include hf hord hrange hfactor hlive hM

/-- The visit whose turn it is, on a machine: it is right, and demands grow by one offset at most. -/
theorem Reached.visit_machine {done rest : List RegionId} {id : RegionId} {p : Progress}
    (h : Reached f order done (id :: rest) p) (ht : Tame p.func (reach done.length)) :
    visitIn M.primitives { p with queue := rest, visits := p.visits + 1 } id =
        some (Inference.visit { p with queue := rest, visits := p.visits + 1 } id) ∧
      Tame (Inference.visit { p with queue := rest, visits := p.visits + 1 } id).func
        (reach (done ++ [id]).length) := by
  have hlen : done.length ≤ Nat.pow 2 28 := by
    have hsplit := congrArg List.length h.split
    rw [List.length_reverse, List.length_append] at hsplit
    omega
  have hroom := reach_le_roomy hlen
  have hnonneg := reach_nonneg done.length
  have hdemand : ∀ r required, p.func.region? id = some r → demand p.func r = .known required →
      r.Modest ∧ required.Within (reach done.length) ∧ required.Ranked p.func.rank := by
    intro r required hr hd
    exact ⟨Func.modest_of_sameStructure h.same hf hrange hfactor hr, ht.demand hnonneg r required hd,
      ((h.canonicalTemps hf).leastAbove_demand hd).ranked⟩
  refine ⟨?_, ?_⟩
  · refine agrees_visit (A := .returns Option) ?_
    intro r required hr hd
    obtain ⟨hmodest, hwithin, _⟩ := hdemand r required hr hd
    obtain ⟨hcomputed, _, hreads⟩ := Region.walk_faithful hM hmodest (hwithin.mono (by omega))
    exact ⟨hcomputed, hreads⟩
  · rw [List.length_append, List.length_singleton, reach_succ]
    obtain ⟨r, hr, ⟨_, heq⟩ | ⟨required, hd, _, _, hv, _⟩⟩ := h.visit_cases hf hord
    · rw [heq]
      have hmax : (0 : Int) ≤ maxCoord := by decide
      exact ⟨fun t x hx => (ht.temp t x hx).mono (by omega),
        fun id r hr => (ht.region id r hr).mono (by omega)⟩
    · obtain ⟨hmodest, hwithin, hranked⟩ := hdemand r required hr hd
      exact ht.visited hnonneg hmodest ((hf.of_sameStructure h.same).fits id r hr) hranked hwithin hv

theorem propagate_machine (hb : f.Bounded) : propagateIn M.primitives f order = some (propagate f order) ∧
    ∀ id r d, (propagate f order).func.region? id = some r → r.shape = .known d →
      r.footprintsIn M.primitives d = some (r.footprints d) := by
  have hstart : Tracked f order (seed f order.reverse) := ⟨[], _, reached_seed order, tame_seed hb _⟩
  have hstep : ∀ {p : Progress} {id : RegionId} {rest : List RegionId}, Tracked f order p →
    p.queue = id :: rest →
      visitIn M.primitives { p with queue := rest, visits := p.visits + 1 } id =
          some (visit { p with queue := rest, visits := p.visits + 1 } id) ∧
        Tracked f order (visit { p with queue := rest, visits := p.visits + 1 } id) := by
    rintro p id rest ⟨done, todo, h, ht⟩ hq
    rw [h.queue] at hq
    subst hq
    obtain ⟨hvisit, htame⟩ := h.visit_machine hf hord hrange hfactor hlive hM ht
    exact ⟨hvisit, _, _, h.visit hf hord, htame⟩
  obtain ⟨hrun, done, todo, h, ht⟩ :=
    agrees_settle (A := .returns Option) hstep (Nat.pow 2 order.length) hstart
  refine ⟨hrun, ?_⟩
  intro id r d hr hd
  have hlen : done.length ≤ Nat.pow 2 28 := by
    have hsplit := congrArg List.length h.split
    rw [List.length_reverse, List.length_append] at hsplit
    omega
  exact hM.footprints_eq (Func.modest_of_sameStructure h.same hf hrange hfactor hr)
    ((ht.region id r hr d hd).mono (reach_le_roomy hlen))

end Faithful

/-- Inference does not overflow. On a function of at most 2²⁸ regions whose unroll factors have 32
bits, 64-bit arithmetic does what unbounded integers do: with a trap at every overflow nothing is
ever trapped, and with words that wrap around the annotations, events and report are the same. So it
is for any machine that is right as long as 64 bits hold what it is given and what it computes. On
unbounded integers the machine is inference itself. A function that verification rejects or that is
cyclic is refused before any arithmetic. -/
theorem inference_never_overflows {f : Func} (hlive : f.regionIds.length ≤ Nat.pow 2 28)
    (hfactor : ∀ id r u, f.region? id = some r → r.unroll = some u → u.factor < Nat.pow 2 32) :
    Machine.checked.run f = some (run f) ∧ Machine.wrapping.run f = some (run f) ∧
      (∀ M : Machine, M.Faithful → M.run f = some (run f)) ∧ ∀ g, Machine.exact.run g = some (run g) := by
  have hall : ∀ M : Machine, M.Faithful → M.run f = some (run f) := by
    intro M hM
    refine agrees_run (A := .returns Option) (B := fun _ => True) rfl (fun _ _ _ _ => rfl) ?_
    intro order hv ho
    obtain ⟨hf, _, hrange, hb⟩ := Func.verified_iff.mp hv
    have hord := Func.ordered_of_order ho
    obtain ⟨hpropagate, hreads⟩ :=
      propagate_machine hf hord hrange hfactor (hord.perm.length_eq ▸ hlive) hM hb
    exact ⟨hpropagate, Func.boxes_trivial _, hreads⟩
  exact ⟨hall _ Machine.faithful_checked, hall _ Machine.faithful_wrapping, hall, Machine.exact_run⟩

/-- A value read as far away as an offset may reach, of a region that fills up groups of three and
reads as far. -/
def remote : Func where
  name := "remote"
  rank := 1
  buffers := [⟨"a", .f64, none, .unknown⟩]
  temps := [some ⟨"p", .f64, 0, 0, .unknown⟩, some ⟨"q", .f64, 1, 0, .unknown⟩]
  regions :=
    [some ⟨"groups", [.buffer 0], ⟨[.access 0 [2147483647]], ⟨[0, 0, 0], some ⟨0, 3⟩⟩⟩,
        none, [0], .unknown⟩,
     some ⟨"read", [.temp 0], .ofOps [.access 0 [2147483647]] [0], none, [1], .unknown⟩]
  outputs := [⟨1, ⟨[2147483645], [2147483647]⟩⟩]
  stamp := none

theorem inference_never_overflows_remote : remote.verified = .ok () ∧
    Machine.checked.run remote = some (run remote) ∧ Machine.wrapping.run remote = some (run remote) ∧
    (∃ report, (run remote).outcome = .ok report) ∧
    ((run remote).func.region? 0).map (·.shape) = some (.known ⟨[4294967292], [4294967295]⟩) ∧
    ((run remote).func.buffer? 0).map (·.required) = some (.known ⟨[6442450939], [6442450940]⟩) := by
  have hfactor : ∀ id r u, remote.region? id = some r → r.unroll = some u → u.factor < Nat.pow 2 32 := by
    intro id r u hr hu
    rcases id with _ | _ | id
    · cases hr
      cases hu
      decide
    · cases hr
      cases hu
    · cases hr
  obtain ⟨hchecked, hwrapping, _⟩ := inference_never_overflows (f := remote) (by decide) hfactor
  exact ⟨rfl, hchecked, hwrapping, ⟨_, rfl⟩, rfl, rfl⟩

end Inference

end Stencil
