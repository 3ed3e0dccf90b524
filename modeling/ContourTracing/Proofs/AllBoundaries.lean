import ContourTracing.Proofs.Depth
import ContourTracing.Proofs.Fresh
import ContourTracing.Proofs.Record
import ContourTracing.Proofs.Tour
import ContourTracing.Tracer.NextBoundary

/-!
# The search in the mode for all boundaries

Between two boundaries the buffers record the circuits that start before the current slot, those
of objects in one buffer and those of holes in the other, and the nesting level is the depth
behind the current position. The sweep over the run edges keeps the level: an edge with a bracket
leads one level up or down as its circuit winds, an edge at the end of a row leads out of
everything, and the first edge without a bracket is the next start.
-/

namespace ContourTracing

namespace Mask

variable {mask : Mask} {connectivity : Connectivity} {after : Option Position} {s : Position}

/-- The depth behind the position after which a search goes on. -/
noncomputable def depthAfter (mask : Mask) (connectivity : Connectivity) : Option Position → ℕ
  | none => 0
  | some s => mask.depth connectivity s.past

theorem depth_eq_of_forall_edge {x x' y : ℤ} (hle : x ≤ x')
    (h : ∀ s, mask.IsBoundary s → s.side.isVertical = true → s.y = y → s.edge ≤ x ∨ x' < s.edge) :
    mask.depth connectivity (x', y) = mask.depth connectivity (x, y) :=
  depth_eq_of_winding_eq fun _ he ↦ winding_eq_of_forall_edge hle fun s hs ↦
    h s (isBoundary_of_mem_circuit he.isBoundary hs)

/-- No pixel of a row before its first vertical boundary side is enclosed. -/
theorem depth_eq_zero_of_forall_edge {x y : ℤ}
    (h : ∀ s, mask.IsBoundary s → s.side.isVertical = true → s.y = y → x < s.edge) :
    mask.depth connectivity (x, y) = 0 := by
  have hout : ¬ mask.Contains (min x (-1)) y := fun hc ↦ by
    have hneg := hc.1
    omega
  rw [depth_eq_of_forall_edge (min_le_left x (-1)) fun s hs hv hy ↦ .inr (h s hs hv hy),
    depth_eq_zero_of_not_contains (p := (min x (-1), y)) hout]

/-- No pixel of a row from its last vertical boundary side on is enclosed. -/
theorem depth_eq_zero_of_forall_edge_le {x y : ℤ}
    (h : ∀ s, mask.IsBoundary s → s.side.isVertical = true → s.y = y → s.edge ≤ x) :
    mask.depth connectivity (x, y) = 0 := by
  have hout : ¬ mask.Contains (max x mask.width) y := fun hc ↦ by
    have hlt := hc.2.1
    omega
  rw [← depth_eq_of_forall_edge (le_max_left x mask.width) fun s hs hv hy ↦ .inl (h s hs hv hy),
    depth_eq_zero_of_not_contains (p := (max x mask.width, y)) hout]

/-- From one run edge to the next the depth does not change, unless the row ends. -/
theorem depth_before_eq_depthAfter
    (hafter : ∀ t, after = some t → mask.IsBoundary t ∧ t.side.isVertical = true)
    (h : mask.nextRunEdge after = some s) :
    mask.depth connectivity s.before = mask.depthAfter connectivity after := by
  obtain ⟨hs, hv, hle, hleast⟩ := nextRunEdge_eq_some h
  have hfirst (t : Position) (ht : mask.IsBoundary t) (htv : t.side.isVertical = true)
      (hle : mask.slotAfter after ≤ mask.slot t) : s.y < t.y ∨ s.y = t.y ∧ s.edge ≤ t.edge :=
    (slot_le_iff hs ht hv htv).1 (hleast t ht htv hle)
  cases after with
  | none =>
    apply depth_eq_zero_of_forall_edge
    intro t ht htv hy
    have hcompare := hfirst t ht htv (Nat.zero_le _)
    omega
  | some a =>
    obtain ⟨ha, hav⟩ := hafter a rfl
    have hbetween (t : Position) (ht : mask.IsBoundary t) (htv : t.side.isVertical = true) :
        (t.y < a.y ∨ t.y = a.y ∧ t.edge ≤ a.edge) ∨ s.y < t.y ∨ s.y = t.y ∧ s.edge ≤ t.edge := by
      rw [← slot_le_iff ht ha htv hav]
      rcases Nat.lt_or_ge (mask.slot a) (mask.slot t) with hlt | hge
      · exact .inr (hfirst t ht htv hlt)
      · exact .inl hge
    have horder : a.y < s.y ∨ a.y = s.y ∧ a.edge ≤ s.edge :=
      (slot_le_iff ha hs hav hv).1 (Nat.le_of_succ_le hle)
    rcases horder with hrow | ⟨hrow, hedge⟩
    · -- the row of the last edge has come to its end, and that of the next one begins
      have hend : mask.depth connectivity a.past = 0 :=
        depth_eq_zero_of_forall_edge_le fun t ht htv hy ↦ by
          have hcompare := hbetween t ht htv
          omega
      rw [depthAfter, hend]
      apply depth_eq_zero_of_forall_edge
      intro t ht htv hy
      have hcompare := hbetween t ht htv
      omega
    · have hne : a.edge ≠ s.edge := fun heq ↦ by
        have hsame := eq_of_edge_eq ha hs hav hv hrow heq
        rw [hsame, slotAfter] at hle
        omega
      rw [depthAfter, Position.before, Position.past, ← hrow]
      apply depth_eq_of_forall_edge (by omega)
      intro t ht htv hy
      have hcompare := hbetween t ht htv
      omega

end Mask

/-- The tours of all circuits, in raster order of their starts. -/
noncomputable def Mask.allTours (mask : Mask) (connectivity : Connectivity) : List Tour :=
  (mask.startList connectivity fun _ ↦ True).map
    (mask.tour connectivity (mask.depth connectivity ·.past))

namespace BracketPair

/-- The brackets of all circuits that start before a slot, by kind in two buffers. -/
structure Records (pair : BracketPair) (mask : Mask) (connectivity : Connectivity) (n : ℕ) :
    Prop where
  isSeparate : pair.second.isSome = true
  external : (pair.cells .external).Records mask 0
    (mask.sidesBefore connectivity (·.side = .left) n)
  internal : (pair.cells .internal).Records mask 0
    (mask.sidesBefore connectivity (·.side = .right) n)

variable {mask : Mask} {connectivity : Connectivity} {pair : BracketPair} {n : ℕ}
  {e s : Position}

theorem Records.hasBracket_iff (h : pair.Records mask connectivity n)
    (he : mask.IsStart connectivity e) (hs : s ∈ mask.circuit connectivity e)
    (hv : s.side.isVertical = true) (hedge : s.edge < mask.width) :
    ((pair.cells .external).hasBracket mask s = true ↔ e.side = .left ∧ mask.slot e < n) ∧
      ((pair.cells .internal).hasBracket mask s = true ↔ e.side = .right ∧ mask.slot e < n) := by
  have hb := Mask.isBoundary_of_mem_circuit he.isBoundary hs
  rw [h.external.hasBracket_iff hb hv hedge (Nat.zero_le _),
    h.internal.hasBracket_iff hb hv hedge (Nat.zero_le _), Mask.mem_sidesBefore_iff he hs,
    Mask.mem_sidesBefore_iff he hs]
  exact ⟨Iff.rfl, Iff.rfl⟩

theorem Records.levelAcross_eq (h : pair.Records mask connectivity n)
    (he : mask.IsStart connectivity e) (hs : s ∈ mask.circuit connectivity e)
    (hv : s.side.isVertical = true) (hedge : s.edge < mask.width) (htraced : mask.slot e < n) :
    levelAcross s.side ((pair.cells .external).hasBracket mask s)
      (mask.depth connectivity s.before) = mask.depth connectivity s.past := by
  have hkind : (pair.cells .external).hasBracket mask s = (e.side == .left) := by
    rw [Bool.eq_iff_iff, (h.hasBracket_iff he hs hv hedge).1, beq_iff_eq]
    exact and_iff_left htraced
  rw [hkind, he.depth_past hs hv, levelAcross]
  rcases Position.side_eq_of_isVertical he.isVertical with hside | hside <;>
    rcases Position.side_eq_of_isVertical hv with hside' | hside' <;>
      simp [hside, hside', sub_eq_add_neg]

/-- What a sweep can come to: the end of a row, a traced circuit, or one that is not traced. -/
theorem Records.edge_cases (h : pair.Records mask connectivity n) (hs : mask.IsBoundary s)
    (hv : s.side.isVertical = true) :
    ((s.side = .right ∧ s.x + 1 = mask.width) ∧ mask.depth connectivity s.past = 0 ∧
        ∀ d, mask.IsStart connectivity d → n ≤ mask.slot d → d ≠ s) ∨
      (¬ (s.side = .right ∧ s.x + 1 = mask.width) ∧
        ((pair.cells .external).hasBracket mask s ||
          (pair.cells .internal).hasBracket mask s) = true ∧
        levelAcross s.side ((pair.cells .external).hasBracket mask s)
          (mask.depth connectivity s.before) = mask.depth connectivity s.past ∧
        ∀ d, mask.IsStart connectivity d → n ≤ mask.slot d → d ≠ s) ∨
      (¬ (s.side = .right ∧ s.x + 1 = mask.width) ∧
        ¬ ((pair.cells .external).hasBracket mask s ||
          (pair.cells .internal).hasBracket mask s) = true ∧
        ∃ e, mask.IsStart connectivity e ∧ n ≤ mask.slot e ∧ s ∈ mask.circuit connectivity e) := by
  by_cases hlast : s.side = .right ∧ s.x + 1 = mask.width
  · have hedge : ¬ s.edge < mask.width := fun hlt ↦ (Mask.edge_lt_width_iff hs hv).1 hlt hlast
    refine .inl ⟨hlast, ?_, fun d hd _ heq ↦ hedge (heq ▸ hd.edge_lt_width)⟩
    exact Mask.depth_eq_zero_of_not_contains fun hc ↦ hedge ((Mask.contains_past_iff hs hv).1 hc)
  · obtain ⟨e, he, hse⟩ := Mask.exists_isStart connectivity hs
    have hedge : s.edge < mask.width := (Mask.edge_lt_width_iff hs hv).2 hlast
    obtain ⟨hexternal, hinternal⟩ := h.hasBracket_iff he hse hv hedge
    rw [Bool.or_eq_true, hexternal, hinternal]
    rcases Nat.lt_or_ge (mask.slot e) n with htraced | huntraced
    · refine .inr (.inl ⟨hlast, ?_, h.levelAcross_eq he hse hv hedge htraced, fun d hd hn heq ↦ ?_⟩)
      · exact (Position.side_eq_of_isVertical he.isVertical).imp (⟨·, htraced⟩) (⟨·, htraced⟩)
      · have hsame := he.eq_of_mem hd hse (heq ▸ hd.self_mem)
        rw [hsame] at hn
        omega
    · exact .inr (.inr ⟨hlast, by omega, e, he, huntraced, hse⟩)

/-- The sweep stops at the next start, at the depth behind it. -/
theorem Records.sweep_eq (h : pair.Records mask connectivity n) {fuel : ℕ} {start : Sweep}
    {after : Option Position} (hstart : start.edge.or start.start = after)
    (hafter : ∀ t, after = some t → mask.IsBoundary t ∧ t.side.isVertical = true)
    (hnone : ∀ d, mask.IsStart connectivity d → n ≤ mask.slot d →
      mask.slotAfter after ≤ mask.slot d)
    (hlevel : start.level = mask.depthAfter connectivity after)
    (hfuel : 2 * mask.size - mask.slotAfter after < fuel) :
    (∃ e, mask.IsNextStart connectivity (fun _ ↦ True) n e ∧
      pair.sweep mask fuel start =
        (true, ⟨start.start, some e, mask.depth connectivity e.past⟩)) ∨
    (∀ d, mask.IsStart connectivity d → mask.slot d < n) ∧
      (pair.sweep mask fuel start).1 = false := by
  induction fuel generalizing start after with
  | zero => omega
  | succ fuel ih =>
    rw [sweep, hstart]
    cases hnext : mask.nextRunEdge after with
    | none =>
      refine .inr ⟨fun d hd ↦ ?_, rfl⟩
      by_contra hn
      have hslot := Mask.nextRunEdge_eq_none hnext hd.isBoundary hd.isVertical
      have hskipped := hnone d hd (by omega)
      omega
    | some s =>
      obtain ⟨hs, hv, hle, hleast⟩ := Mask.nextRunEdge_eq_some hnext
      have hbefore : mask.depth connectivity s.before = mask.depthAfter connectivity after :=
        Mask.depth_before_eq_depthAfter hafter hnext
      have hsome : ∀ t, some s = some t → mask.IsBoundary t ∧ t.side.isVertical = true := by
        rintro t ⟨⟩
        exact ⟨hs, hv⟩
      have hahead (d : Position) (hd : mask.IsStart connectivity d) (hn : n ≤ mask.slot d) :
          mask.slot s ≤ mask.slot d :=
        hleast d hd.isBoundary hd.isVertical (hnone d hd hn)
      -- after an edge that is not a start, the search goes on with the same starts ahead
      have hskip (hne : ∀ d, mask.IsStart connectivity d → n ≤ mask.slot d → d ≠ s) (d : Position)
          (hd : mask.IsStart connectivity d) (hn : n ≤ mask.slot d) :
          mask.slotAfter (some s) ≤ mask.slot d :=
        lt_of_le_of_ne (hahead d hd hn) fun heq ↦
          hne d hd hn (Mask.eq_of_slot_eq hd.isBoundary hs hd.isVertical hv heq.symm)
      have hrest : 2 * mask.size - mask.slotAfter (some s) < fuel := by
        have hsize := Mask.slot_lt_of_isBoundary hs
        simp only [Mask.slotAfter]
        omega
      rcases h.edge_cases hs hv with ⟨hlast, hdepth, hne⟩ | ⟨hlast, hmarked, hdepth, hne⟩ |
        ⟨hlast, hunmarked, e, he, huntraced, hse⟩
      · simp only [if_pos hlast]
        have hout : (mask.depthAfter connectivity (some s) : ℤ) = 0 := congrArg Nat.cast hdepth
        exact ih rfl hsome (hskip hne) hout.symm hrest
      · simp only [if_neg hlast, if_pos hmarked]
        exact ih rfl hsome (hskip hne) (by rw [hlevel, ← hbefore]; exact hdepth) hrest
      · have heq : s = e := Mask.eq_of_slot_eq hs he.isBoundary hv he.isVertical
          (le_antisymm (hahead e he huntraced) (he.slot_le s hse hv))
        subst heq
        have hpast := he.depth_past he.self_mem hv
        rw [if_pos rfl] at hpast
        simp only [if_neg hlast, if_neg hunmarked]
        refine .inl ⟨s, ⟨he, trivial, huntraced, fun d hd _ ↦ hahead d hd⟩, ?_⟩
        rw [hlevel, hpast, hbefore]

/-! ## The brackets of one more circuit -/

theorem isSome_second_putBracket (h : pair.second.isSome = true) (kind : BoundaryKind) :
    (pair.putBracket mask kind s).second.isSome = true := by
  obtain ⟨first, second⟩ := pair
  obtain ⟨second, rfl⟩ := Option.isSome_iff_exists.1 h
  cases kind <;> rfl

theorem cells_putBracket (h : pair.second.isSome = true) (kind other : BoundaryKind) :
    (pair.putBracket mask kind s).cells other =
      if other = kind then (pair.cells other).putBracket mask s else pair.cells other := by
  obtain ⟨first, second⟩ := pair
  obtain ⟨second, rfl⟩ := Option.isSome_iff_exists.1 h
  cases kind <;> cases other <;> rfl

/-- Brackets of one kind leave those of the other kind alone. -/
theorem cells_foldl_putBracket (mask : Mask) (h : pair.second.isSome = true)
    (kind other : BoundaryKind) (sides : List Position) :
    (sides.foldl (fun pair s ↦ pair.putBracket mask kind s) pair).second.isSome = true ∧
      (sides.foldl (fun pair s ↦ pair.putBracket mask kind s) pair).cells other =
        if other = kind then sides.foldl (·.putBracket mask ·) (pair.cells other)
        else pair.cells other := by
  induction sides generalizing pair with
  | nil => exact ⟨h, by simp⟩
  | cons s sides ih =>
    obtain ⟨hsome, hcells⟩ := ih (isSome_second_putBracket (s := s) h kind)
    refine ⟨hsome, ?_⟩
    rw [List.foldl_cons, hcells, cells_putBracket h, List.foldl_cons]
    split <;> rfl

theorem Records.foldl_putBracket (h : pair.Records mask connectivity n)
    (he : mask.IsNextStart connectivity (fun _ ↦ True) n e) :
    ((mask.circuit connectivity e).foldl
      (fun pair s ↦ pair.putBracket mask (.ofSide e.side) s) pair).Records mask connectivity
        (mask.slot e + 1) := by
  have hcells := fun other ↦ cells_foldl_putBracket mask h.isSeparate (.ofSide e.side) other
    (mask.circuit connectivity e)
  have hboundary (s : Position) (hs : s ∈ mask.circuit connectivity e) : mask.IsBoundary s :=
    Mask.isBoundary_of_mem_circuit he.isStart.isBoundary hs
  have hsides (P : Position → Prop) : mask.sidesBefore connectivity P (mask.slot e + 1) =
      mask.sidesBefore connectivity P n ∪ {s | P e ∧ s ∈ mask.circuit connectivity e} :=
    Mask.sidesBefore_succ he.isStart he.le_slot fun d hd _ ↦ he.slot_le d hd trivial
  refine ⟨(hcells .external).1, ?_, ?_⟩
  · rw [(hcells .external).2, hsides]
    rcases Position.side_eq_of_isVertical he.isStart.isVertical with hside | hside
    · simpa [hside, BoundaryKind.ofSide] using h.external.foldl_putBracket hboundary
    · simpa [hside, BoundaryKind.ofSide] using h.external
  · rw [(hcells .internal).2, hsides]
    rcases Position.side_eq_of_isVertical he.isStart.isVertical with hside | hside
    · simpa [hside, BoundaryKind.ofSide] using h.internal
    · simpa [hside, BoundaryKind.ofSide] using h.internal.foldl_putBracket hboundary

end BracketPair

/-! ## The search of a tracer -/

theorem Memory.foldl_record_brackets (mask : Mask) (pair : BracketPair) (kind : BoundaryKind)
    (level : ℤ) (sides : List Position) :
    sides.foldl (fun memory s ↦ memory.record mask s) (Memory.brackets pair kind level) =
      .brackets (sides.foldl (fun pair s ↦ pair.putBracket mask kind s) pair) kind level := by
  induction sides generalizing pair with
  | nil => rfl
  | cons s sides ih => exact ih (pair.putBracket mask kind s)

namespace Tracer

variable {mask : Mask} {connectivity : Connectivity} {tracer : Tracer} {pair : BracketPair}
  {n : ℕ} {e : Position}

theorem nextUntraced_fst (tracer : Tracer) (pair : BracketPair) (active : BoundaryKind)
    (level : ℤ) : (tracer.nextUntraced pair active level).1 =
      (pair.sweep tracer.mask (2 * tracer.mask.size + 1) ⟨tracer.position?, none, level⟩).1 := by
  simp only [nextUntraced]
  split <;> rfl

theorem nextUntraced_of_found {active : BoundaryKind} {level level' : ℤ}
    {start : Option Position}
    (h : pair.sweep tracer.mask (2 * tracer.mask.size + 1) ⟨tracer.position?, none, level⟩ =
      (true, ⟨start, some e, level'⟩)) :
    tracer.nextUntraced pair active level =
      (true, { tracer.place e with memory := .brackets pair (.ofSide e.side) level' }) := by
  simp only [nextUntraced, h]
  rfl

/-- A tracer between two boundaries: those that start before a slot are traced. -/
structure HasTracedAll (mask : Mask) (connectivity : Connectivity) (n : ℕ) (tracer : Tracer) :
    Prop where
  mask_eq : tracer.mask = mask
  connectivity_eq : tracer.connectivity = connectivity
  slotAfter_eq : mask.slotAfter tracer.position? = n
  isBoundary : ∀ s, tracer.position? = some s → mask.IsBoundary s ∧ s.side.isVertical = true
  memory_eq : ∃ pair active, tracer.memory =
      .brackets pair active (mask.depthAfter connectivity tracer.position?) ∧
    pair.Records mask connectivity n

theorem IsFreshForAll.hasTracedAll (h : tracer.IsFreshForAll) :
    HasTracedAll tracer.mask tracer.connectivity 0 tracer := by
  have hposition : tracer.position? = none := by rw [position?, h.placement_eq, Option.map_none]
  obtain ⟨external, internal, hmemory, ⟨hsize, hblank⟩, ⟨hsize', hblank'⟩⟩ := h.memory_eq
  have hrecords : BracketPair.Records ⟨external, some internal⟩ tracer.mask
      tracer.connectivity 0 := by
    refine ⟨rfl, ?_, ?_⟩ <;> rw [Mask.sidesBefore_zero]
    · exact Cells.Records.of_isMarked_eq_false hsize hblank
    · exact Cells.Records.of_isMarked_eq_false hsize' hblank'
  refine ⟨rfl, rfl, ?_, ?_, ⟨external, some internal⟩, .external, ?_, hrecords⟩
  · rw [hposition, Mask.slotAfter]
  · rw [hposition]
    rintro s ⟨⟩
  · rw [hposition, hmemory]
    rfl

namespace HasTracedAll

/-- The search stops at the next start, or nowhere if there is none. -/
theorem nextBoundary_cases (h : HasTracedAll mask connectivity n tracer) :
    (∃ e pair found, mask.IsNextStart connectivity (fun _ ↦ True) n e ∧
      pair.Records mask connectivity n ∧ tracer.nextBoundary = (true, found) ∧
      found.IsFoundAt mask connectivity (mask.depth connectivity ·.past) e ∧
      found.memory = .brackets pair (.ofSide e.side) (mask.depth connectivity e.past)) ∨
    (∀ d, mask.IsStart connectivity d → mask.slot d < n) ∧ tracer.nextBoundary.1 = false := by
  obtain ⟨rfl, rfl, hslot, hboundary, pair, active, hmemory, hrecords⟩ := h
  have hstarts (d : Position) (_ : tracer.mask.IsStart tracer.connectivity d)
      (hn : n ≤ tracer.mask.slot d) : tracer.mask.slotAfter tracer.position? ≤
        tracer.mask.slot d := by
    rwa [hslot]
  have hfuel : 2 * tracer.mask.size - tracer.mask.slotAfter tracer.position? <
      2 * tracer.mask.size + 1 := by
    omega
  let start : Sweep :=
    ⟨tracer.position?, none, tracer.mask.depthAfter tracer.connectivity tracer.position?⟩
  have hstart : start.edge.or start.start = tracer.position? := rfl
  simp only [nextBoundary, hmemory]
  rcases hrecords.sweep_eq hstart hboundary hstarts rfl hfuel with
    ⟨e, hnext, hsweep⟩ | ⟨hnone, hsweep⟩
  · rw [nextUntraced_of_found hsweep]
    exact .inl ⟨e, pair, _, hnext, hrecords, rfl,
      ⟨rfl, rfl, hnext.isStart.isBoundary, rfl, rfl, rfl⟩, rfl⟩
  · refine .inr ⟨hnone, ?_⟩
    rw [nextUntraced_fst]
    exact hsweep

theorem nextBoundary_fst (h : HasTracedAll mask connectivity n tracer)
    (hnone : ∀ e, mask.IsStart connectivity e → mask.slot e < n) :
    tracer.nextBoundary.1 = false := by
  rcases h.nextBoundary_cases with ⟨e, -, -, hnext, -⟩ | ⟨-, hfound⟩
  · have hlt := hnone e hnext.isStart
    have hle := hnext.le_slot
    omega
  · exact hfound

/-- One round of the loop: the next start is found and its circuit is recorded. -/
theorem exists_found (h : HasTracedAll mask connectivity n tracer)
    (he : mask.IsNextStart connectivity (fun _ ↦ True) n e) :
    ∃ found, tracer.nextBoundary = (true, found) ∧
      found.IsFoundAt mask connectivity (mask.depth connectivity ·.past) e ∧
      HasTracedAll mask connectivity (mask.slot e + 1) (found.scanned e) := by
  rcases h.nextBoundary_cases with ⟨d, pair, found, hnext, hrecords, hfound, hat, hmemory⟩ |
    ⟨hnone, -⟩
  · obtain rfl : d = e := hnext.unique he
    have hposition : (found.scanned d).position? = some d :=
      position?_scanned (by rw [position?, hat.placement_eq]; rfl)
    refine ⟨found, hfound, hat, by rw [mask_scanned, hat.mask_eq],
      by rw [connectivity_scanned, hat.connectivity_eq], ?_, ?_, _, .ofSide d.side, ?_,
      hrecords.foldl_putBracket hnext⟩
    · rw [hposition, Mask.slotAfter]
    · rw [hposition]
      rintro s ⟨⟩
      exact ⟨he.isStart.isBoundary, he.isStart.isVertical⟩
    · rw [memory_scanned, hat.mask_eq, hat.connectivity_eq, hmemory, Memory.foldl_record_brackets,
        hposition, Mask.depthAfter]
  · have hlt := hnone e he.isStart
    have hle := he.le_slot
    omega

end HasTracedAll

/-- The loop makes one tour of every circuit, in raster order of their starts. -/
theorem IsFreshForAll.exists_loop (h : tracer.IsFreshForAll) :
    ∃ last, tracer.Loop (tracer.mask.allTours tracer.connectivity) last :=
  exists_loop_map_startList (fun hinv hnone ↦ hinv.nextBoundary_fst fun e he ↦ hnone e he trivial)
    (fun hinv he ↦ hinv.exists_found he) h.hasTracedAll

end Tracer

end ContourTracing
