import ContourTracing.Proofs.Start
import ContourTracing.Scan

/-!
# Tours of all boundaries

A tour follows one boundary from the start at which the search has put the tracer until it is
closed. The search and the scan take turns until the search finds nothing: `Tracer.Loop` relates a
tracer to the tours of that loop, if the loop ends. A scan from a boundary side always ends, after
one round of the circuit of that side, with one record for each step in tally and memory.
-/

namespace ContourTracing

/-- A step and the position on which it arrives. -/
structure Arrival where
  step : Step
  position : Position
deriving DecidableEq, Repr

/-- A boundary as one scan has followed it. -/
structure Round where
  start : Position
  arrivals : List Arrival
  tally : Tally
deriving DecidableEq, Repr

/-- A round and the nesting level at its start. -/
structure Tour extends Round where
  level : ℤ
deriving DecidableEq, Repr

namespace Round

def positions (round : Round) : List Position :=
  round.arrivals.map (·.position)

end Round

namespace Tracer

/-- The arrivals of the next so many steps. -/
def arrivals : ℕ → Tracer → List Arrival
  | 0, _ => []
  | count + 1, tracer =>
    match tracer.next with
    | .error _ => []
    | .ok tracer =>
      match tracer.lastStep?, tracer.position? with
      | some step, some position => ⟨step, position⟩ :: arrivals count tracer
      | _, _ => []

/-- Scans the boundary at which the tracer stands, without a context. -/
def tour? (found : Tracer) : Option (Tour × Tracer) :=
  let run := (Stack.bare found).scan .silent found.interval
  match found.position?, run.result with
  | some start, .ok _ =>
    let tracer := run.stack.tracer
    some (⟨⟨start, found.arrivals run.steps, tracer.tally⟩, found.memory.level⟩, tracer)
  | _, _ => none

/-- The loop that finds and scans one boundary after the other until there are no more, with the
tours that it has made when it ends. -/
inductive Loop : Tracer → List Tour → Tracer → Prop
  | stop {tracer last : Tracer} : tracer.nextBoundary = (false, last) → Loop tracer [] last
  | round {tracer found next last : Tracer} {tour : Tour} {tours : List Tour} :
    tracer.nextBoundary = (true, found) → found.tour? = some (tour, next) →
      Loop next tours last → Loop tracer (tour :: tours) last

/-- The loop ends in one way only. -/
theorem Loop.unique {tracer last last' : Tracer} {tours tours' : List Tour}
    (h : Loop tracer tours last) (h' : Loop tracer tours' last') :
    tours = tours' ∧ last = last' := by
  induction h generalizing tours' last' with
  | stop hstop =>
    cases h' with
    | stop hstop' =>
      rw [hstop, Prod.mk.injEq] at hstop'
      exact ⟨rfl, hstop'.2⟩
    | round hfound =>
      rw [hstop, Prod.mk.injEq] at hfound
      exact absurd hfound.1 (by decide)
  | round hfound htour _ ih =>
    cases h' with
    | stop hstop =>
      rw [hfound, Prod.mk.injEq] at hstop
      exact absurd hstop.1 (by decide)
    | round hfound' htour' hrest =>
      rw [hfound, Prod.mk.injEq] at hfound'
      obtain rfl := hfound'.2
      rw [htour, Option.some.injEq, Prod.mk.injEq] at htour'
      obtain ⟨rfl, rfl⟩ := htour'
      obtain ⟨rfl, rfl⟩ := ih hrest
      exact ⟨rfl, rfl⟩

/-- What every round keeps holds when the loop has found nothing more. -/
theorem Loop.exists_stop {tracer last : Tracer} {tours : List Tour} (Inv : Tracer → Prop)
    (hround : ∀ tracer found next tour, Inv tracer → tracer.nextBoundary = (true, found) →
      found.tour? = some (tour, next) → Inv next)
    (h : tracer.Loop tours last) (hinv : Inv tracer) :
    ∃ final, Inv final ∧ final.nextBoundary = (false, last) := by
  induction h with
  | stop hstop => exact ⟨_, hinv, hstop⟩
  | round hfound htour _ ih => exact ih (hround _ _ _ _ hinv hfound htour)

/-! ## One step -/

def arrive (tracer : Tracer) (arrival : Arrival) : Tracer where
  mask := tracer.mask
  policy := tracer.policy
  connectivity := tracer.connectivity
  interval := tracer.interval
  line := tracer.line
  placement := tracer.placement.map fun placement ↦
    ⟨placement.start, arrival.position, some arrival.step⟩
  tally := tracer.tally.record arrival.step arrival.position
  memory := tracer.memory.record tracer.mask arrival.position

end Tracer

/-- The arrivals of the walk from a position. -/
def Mask.arrivals (mask : Mask) (connectivity : Connectivity) : ℕ → Position → List Arrival
  | 0, _ => []
  | count + 1, s =>
    let next := mask.successor connectivity s
    ⟨mask.chooseStep connectivity s, next⟩ :: arrivals mask connectivity count next

theorem Mask.map_position_arrivals (mask : Mask) (connectivity : Connectivity) (count : ℕ)
    (s : Position) : (mask.arrivals connectivity count s).map (·.position) =
      (List.range count).map fun n ↦ (mask.successor connectivity)^[n + 1] s := by
  induction count generalizing s with
  | zero => rfl
  | succ count ih =>
    rw [arrivals, List.map_cons, ih, List.range_succ_eq_map, List.map_cons, List.map_map]
    rfl

theorem Mask.length_arrivals (mask : Mask) (connectivity : Connectivity) (count : ℕ)
    (s : Position) : (mask.arrivals connectivity count s).length = count := by
  induction count generalizing s with
  | zero => rfl
  | succ count ih => rw [arrivals, List.length_cons, ih]

namespace Tracer

/-- The arrival of the next step from a position. -/
def arrivalFrom (tracer : Tracer) (s : Position) : Arrival :=
  ⟨tracer.mask.chooseStep tracer.connectivity s, tracer.mask.successor tracer.connectivity s⟩

variable {tracer : Tracer} {e s : Position} {last : Option Step}

theorem next_eq_arrive (hplace : tracer.placement = some ⟨e, s, last⟩)
    (hunfinished : (Placement.mk e s last).isFinished = false) :
    tracer.next = .ok (tracer.arrive (tracer.arrivalFrom s)) := by
  simp only [next, hplace, hunfinished]
  simp [advance, arrive, arrivalFrom, hplace, Mask.successor]

theorem placement_arrive (hplace : tracer.placement = some ⟨e, s, last⟩) (arrival : Arrival) :
    (tracer.arrive arrival).placement = some ⟨e, arrival.position, some arrival.step⟩ := by
  simp [arrive, hplace]

theorem arrivals_succ (count : ℕ) (hplace : tracer.placement = some ⟨e, s, last⟩)
    (hunfinished : (Placement.mk e s last).isFinished = false) :
    tracer.arrivals (count + 1) =
      tracer.arrivalFrom s :: (tracer.arrive (tracer.arrivalFrom s)).arrivals count := by
  have hplace' := placement_arrive hplace (tracer.arrivalFrom s)
  simp [arrivals, next_eq_arrive hplace hunfinished, lastStep?, position?, hplace']

/-! ## A whole scan -/

theorem scanFrom_of_isFinished (hplace : tracer.placement = some ⟨e, s, last⟩)
    (hfinished : (Placement.mk e s last).isFinished = true) (interval fuel steps : ℕ) :
    Stack.scanFrom .silent interval fuel steps (.bare tracer) =
      ⟨.ok (), steps, .bare tracer⟩ := by
  have h : (Stack.bare tracer).isFinished = true := by
    simp [Stack.isFinished, Stack.bare, isFinished, hplace, hfinished]
  cases fuel <;> simp [Stack.scanFrom, h]

theorem scanFrom_succ (interval fuel steps : ℕ) (hplace : tracer.placement = some ⟨e, s, last⟩)
    (hunfinished : (Placement.mk e s last).isFinished = false) :
    Stack.scanFrom .silent interval (fuel + 1) steps (.bare tracer) =
      Stack.scanFrom .silent interval fuel (steps + 1)
        (.bare (tracer.arrive (tracer.arrivalFrom s))) := by
  have h : (Stack.bare tracer).isFinished = false := by
    simp [Stack.isFinished, Stack.bare, isFinished, hplace, hunfinished]
  have hnext : (Stack.bare tracer).next =
      .ok (.bare (tracer.arrive (tracer.arrivalFrom s))) := by
    simp [Stack.next, Stack.bare, next_eq_arrive hplace hunfinished]
  have hcheck : Stack.checkAfter .silent interval (steps + 1) = none := by
    simp [Stack.checkAfter, Context.silent]
  rw [Stack.scanFrom, h, hnext, hcheck]
  rfl

/-- A scan makes steps until one of them arrives at the start. -/
theorem scanFrom_eq {count fuel : ℕ} (interval steps : ℕ)
    (hplace : tracer.placement = some ⟨e, s, last⟩)
    (hunfinished : (Placement.mk e s last).isFinished = false)
    (hback : (tracer.mask.successor tracer.connectivity)^[count + 1] s = e)
    (hnot : ∀ n < count, (tracer.mask.successor tracer.connectivity)^[n + 1] s ≠ e)
    (hfuel : count < fuel) :
    Stack.scanFrom .silent interval fuel steps (.bare tracer) =
        ⟨.ok (), steps + (count + 1), .bare ((tracer.mask.arrivals tracer.connectivity (count + 1)
          s).foldl arrive tracer)⟩ ∧
      tracer.arrivals (count + 1) = tracer.mask.arrivals tracer.connectivity (count + 1) s := by
  induction count generalizing tracer s last fuel steps with
  | zero =>
    obtain ⟨fuel, rfl⟩ : ∃ rest, fuel = rest + 1 := ⟨fuel - 1, by omega⟩
    have hplace' := placement_arrive hplace (tracer.arrivalFrom s)
    have hfinished : (Placement.mk e (tracer.arrivalFrom s).position
        (some (tracer.arrivalFrom s).step)).isFinished = true := by
      simpa [Placement.isFinished, arrivalFrom] using hback
    rw [scanFrom_succ interval fuel steps hplace hunfinished,
      scanFrom_of_isFinished hplace' hfinished, arrivals_succ 0 hplace hunfinished]
    exact ⟨rfl, rfl⟩
  | succ count ih =>
    obtain ⟨fuel, rfl⟩ : ∃ rest, fuel = rest + 1 := ⟨fuel - 1, by omega⟩
    have hplace' := placement_arrive hplace (tracer.arrivalFrom s)
    have hunfinished' : (Placement.mk e (tracer.arrivalFrom s).position
        (some (tracer.arrivalFrom s).step)).isFinished = false := by
      simpa [Placement.isFinished, arrivalFrom] using hnot 0 (by omega)
    obtain ⟨hrun, harrivals⟩ := ih (steps + 1) hplace' hunfinished' hback
      (fun n hn ↦ hnot (n + 1) (by omega)) (show count < fuel by omega)
    rw [scanFrom_succ interval fuel steps hplace hunfinished, hrun,
      arrivals_succ (count + 1) hplace hunfinished, harrivals, Nat.add_right_comm steps 1]
    exact ⟨rfl, rfl⟩

/-- The tracer after a scan from a start. -/
noncomputable def scanned (tracer : Tracer) (e : Position) : Tracer :=
  (tracer.mask.arrivals tracer.connectivity (tracer.mask.period tracer.connectivity e) e).foldl
    arrive tracer

/-- There is fuel for one round of the circuit. -/
theorem exists_count (h : tracer.mask.IsBoundary e) (interval : ℕ) :
    ∃ count, tracer.mask.period tracer.connectivity e = count + 1 ∧
      (tracer.mask.successor tracer.connectivity)^[count + 1] e = e ∧
      (∀ n < count, (tracer.mask.successor tracer.connectivity)^[n + 1] e ≠ e) ∧
      count < (Stack.bare tracer).patience .silent interval := by
  have hpos : 0 < tracer.mask.period tracer.connectivity e := Mask.period_pos h
  have hle : tracer.mask.period tracer.connectivity e ≤ 4 * tracer.mask.size := Mask.period_le h
  have hback := tracer.mask.iterate_period tracer.connectivity e
  refine ⟨tracer.mask.period tracer.connectivity e - 1, by omega, ?_, ?_, ?_⟩
  · rwa [Nat.sub_add_cancel hpos]
  · exact fun n hn ↦ Mask.iterate_ne_self (Nat.succ_pos n) (by omega)
  · simp only [Stack.patience, Stack.bare]
    omega

/-- A scan from a boundary side goes once around its circuit. -/
theorem scan_eq (h : tracer.mask.IsBoundary e)
    (hplace : tracer.placement = some (Placement.initial e)) (interval : ℕ) :
    (Stack.bare tracer).scan .silent interval =
        ⟨.ok (tracer.scanned e).tally.steps, tracer.mask.period tracer.connectivity e,
          .bare (tracer.scanned e)⟩ ∧
      tracer.arrivals (tracer.mask.period tracer.connectivity e) =
        tracer.mask.arrivals tracer.connectivity (tracer.mask.period tracer.connectivity e) e := by
  obtain ⟨count, hcount, hback, hnot, hfuel⟩ := exists_count h interval
  obtain ⟨hrun, harrivals⟩ := scanFrom_eq interval 0 hplace rfl hback hnot hfuel
  rw [hcount]
  refine ⟨?_, harrivals⟩
  rw [Stack.scan, hrun, scanned, hcount, Nat.zero_add]
  rfl

theorem tour?_eq (h : tracer.mask.IsBoundary e)
    (hplace : tracer.placement = some (Placement.initial e)) :
    tracer.tour? = some (⟨⟨e, tracer.mask.arrivals tracer.connectivity
      (tracer.mask.period tracer.connectivity e) e, (tracer.scanned e).tally⟩,
        tracer.memory.level⟩, tracer.scanned e) := by
  obtain ⟨hscan, harrivals⟩ := scan_eq h hplace tracer.interval
  have hposition : tracer.position? = some e := by simp [position?, hplace, Placement.initial]
  simp only [tour?, hscan, hposition, harrivals]
  rfl

/-! ## What a scan leaves -/

section Arrivals

variable (tracer : Tracer) (arrivals : List Arrival)

@[simp]
theorem mask_foldl_arrive : (arrivals.foldl arrive tracer).mask = tracer.mask := by
  induction arrivals generalizing tracer with
  | nil => rfl
  | cons arrival arrivals ih => exact ih (tracer.arrive arrival)

@[simp]
theorem connectivity_foldl_arrive :
    (arrivals.foldl arrive tracer).connectivity = tracer.connectivity := by
  induction arrivals generalizing tracer with
  | nil => rfl
  | cons arrival arrivals ih => exact ih (tracer.arrive arrival)

theorem tally_foldl_arrive : (arrivals.foldl arrive tracer).tally =
    arrivals.foldl (fun tally arrival ↦ tally.record arrival.step arrival.position)
      tracer.tally := by
  induction arrivals generalizing tracer with
  | nil => rfl
  | cons arrival arrivals ih => exact ih (tracer.arrive arrival)

theorem memory_foldl_arrive : (arrivals.foldl arrive tracer).memory =
    (arrivals.map (·.position)).foldl (·.record tracer.mask ·) tracer.memory := by
  induction arrivals generalizing tracer with
  | nil => rfl
  | cons arrival arrivals ih => exact ih (tracer.arrive arrival)

end Arrivals

theorem position?_foldl_arrive (count : ℕ) (h : tracer.position? = some s) :
    ((tracer.mask.arrivals tracer.connectivity count s).foldl arrive tracer).position? =
      some ((tracer.mask.successor tracer.connectivity)^[count] s) := by
  induction count generalizing tracer s with
  | zero => exact h
  | succ count ih =>
    have hnext : (tracer.arrive (tracer.arrivalFrom s)).position? =
        some (tracer.mask.successor tracer.connectivity s) := by
      obtain ⟨placement, hplacement, -⟩ := Option.map_eq_some_iff.1 h
      simp [position?, arrive, hplacement, arrivalFrom]
    exact ih hnext

@[simp]
theorem mask_scanned (tracer : Tracer) (e : Position) : (tracer.scanned e).mask = tracer.mask :=
  mask_foldl_arrive ..

@[simp]
theorem connectivity_scanned (tracer : Tracer) (e : Position) :
    (tracer.scanned e).connectivity = tracer.connectivity :=
  connectivity_foldl_arrive ..

/-- A scan ends where it began. -/
theorem position?_scanned (h : tracer.position? = some e) :
    (tracer.scanned e).position? = some e := by
  rw [scanned, position?_foldl_arrive _ h, Mask.iterate_period]

/-- A scan leaves one record in the memory for every side of the circuit. -/
theorem memory_scanned (tracer : Tracer) (e : Position) : (tracer.scanned e).memory =
    (tracer.mask.circuit tracer.connectivity e).foldl (·.record tracer.mask ·) tracer.memory := by
  rw [scanned, memory_foldl_arrive, Mask.map_position_arrivals]
  rfl

end Tracer

/-- The tally of a list of arrivals. -/
def Tally.ofArrivals (arrivals : List Arrival) : Tally :=
  arrivals.foldl (fun tally arrival ↦ tally.record arrival.step arrival.position) {}

theorem Tally.area_foldl_record (arrivals : List Arrival) (tally : Tally) :
    (arrivals.foldl (fun tally arrival ↦ tally.record arrival.step arrival.position) tally).area =
      tally.area + ((arrivals.map (·.position)).map Tally.areaAt).sum := by
  induction arrivals generalizing tally with
  | nil => simp
  | cons arrival arrivals ih =>
    rw [List.foldl_cons, ih, List.map_cons, List.map_cons, List.sum_cons, Tally.record]
    ring

theorem Tally.steps_foldl_record (arrivals : List Arrival) (tally : Tally) :
    (arrivals.foldl (fun tally arrival ↦ tally.record arrival.step arrival.position) tally).steps =
      tally.steps + arrivals.length := by
  induction arrivals generalizing tally with
  | nil => rfl
  | cons arrival arrivals ih =>
    have hstep : (tally.record arrival.step arrival.position).steps = tally.steps + 1 := rfl
    rw [List.foldl_cons, ih, List.length_cons, hstep]
    omega

namespace Mask

/-- The tour of the circuit of a side. -/
noncomputable def tour (mask : Mask) (connectivity : Connectivity) (level : Position → ℤ)
    (e : Position) : Tour :=
  let arrivals := mask.arrivals connectivity (mask.period connectivity e) e
  ⟨⟨e, arrivals, Tally.ofArrivals arrivals⟩, level e⟩

variable {mask : Mask} {connectivity : Connectivity} {level : Position → ℤ} {e : Position}

@[simp]
theorem positions_tour :
    (mask.tour connectivity level e).positions = mask.circuit connectivity e :=
  map_position_arrivals ..

theorem area_tour : (mask.tour connectivity level e).tally.area =
    ((mask.circuit connectivity e).map Tally.areaAt).sum := by
  refine (Tally.area_foldl_record _ _).trans ?_
  rw [map_position_arrivals]
  exact Int.zero_add _

theorem steps_tour : (mask.tour connectivity level e).tally.steps =
    (mask.tour connectivity level e).arrivals.length :=
  (Tally.steps_foldl_record _ _).trans (Nat.zero_add _)

end Mask

/-! ## The whole loop -/

theorem filter_range'_of_firstOf_eq_none {hit : ℕ → Bool} {start count : ℕ}
    (h : Search.firstOf hit start count = none) : (List.range' start count).filter hit = [] := by
  rw [Search.firstOf_eq_none_iff] at h
  apply List.filter_eq_nil_iff.2
  intro n hn
  obtain ⟨hle, hlt⟩ := List.mem_range'_1.1 hn
  rw [h n hle hlt]
  decide

/-- The hits of a range are the first one and those behind it. -/
theorem filter_range'_of_firstOf_eq_some {hit : ℕ → Bool} {start count found : ℕ}
    (h : Search.firstOf hit start count = some found) :
    (List.range' start count).filter hit =
      found :: (List.range' (found + 1) (start + count - (found + 1))).filter hit := by
  induction count generalizing start with
  | zero => cases h
  | succ count ih =>
    rw [List.range'_succ]
    by_cases hhit : hit start = true
    · rw [Search.firstOf_of_hit count hhit, Option.some.injEq] at h
      subst h
      have hcount : start + (count + 1) - (start + 1) = count := by omega
      rw [List.filter_cons_of_pos hhit, hcount]
    · rw [Search.firstOf_of_not_hit count hhit] at h
      have hstop : start + 1 + count = start + (count + 1) := by omega
      rw [List.filter_cons_of_neg hhit, ih h, hstop]

namespace Tracer

/-- A tracer that a search has put on a boundary side. -/
structure IsFoundAt (found : Tracer) (mask : Mask) (connectivity : Connectivity)
    (level : Position → ℤ) (e : Position) : Prop where
  mask_eq : found.mask = mask
  connectivity_eq : found.connectivity = connectivity
  isBoundary : mask.IsBoundary e
  placement_eq : found.placement = some (.initial e)
  tally_eq : found.tally = {}
  level_eq : found.memory.level = level e

section Rounds

variable {mask : Mask} {connectivity : Connectivity} {level : Position → ℤ} {found : Tracer}
  {e : Position}

theorem IsFoundAt.tour?_eq (h : found.IsFoundAt mask connectivity level e) :
    found.tour? = some (mask.tour connectivity level e, found.scanned e) := by
  obtain ⟨rfl, rfl, hb, hplacement, htally, hlevel⟩ := h
  have hscanned : (found.scanned e).tally = Tally.ofArrivals
      (found.mask.arrivals found.connectivity (found.mask.period found.connectivity e) e) := by
    rw [scanned, tally_foldl_arrive, htally, Tally.ofArrivals]
  rw [Tracer.tour?_eq hb hplacement, hscanned, hlevel, Mask.tour]

/-- If the search always goes on to the next hit, then the loop makes a tour at every hit. -/
theorem exists_loop_of_invariant {hit : ℕ → Bool} {Inv : ℕ → Tracer → Prop}
    (hnone : ∀ {n tracer}, Inv n tracer → Search.firstOf hit n (2 * mask.size - n) = none →
      tracer.nextBoundary.1 = false)
    (hsome : ∀ {n tracer m}, Inv n tracer →
      Search.firstOf hit n (2 * mask.size - n) = some m →
        ∃ found, tracer.nextBoundary = (true, found) ∧
          found.IsFoundAt mask connectivity level (mask.atSlot m) ∧
          Inv (m + 1) (found.scanned (mask.atSlot m)))
    {n : ℕ} {tracer : Tracer} (h : Inv n tracer) :
    ∃ last, tracer.Loop (((List.range' n (2 * mask.size - n)).filter hit).map
      fun m ↦ mask.tour connectivity level (mask.atSlot m)) last := by
  -- on the number of slots that are left
  induction hcount : 2 * mask.size - n using Nat.strong_induction_on generalizing n tracer with
  | h count ih =>
    subst hcount
    cases hfirst : Search.firstOf hit n (2 * mask.size - n) with
    | none =>
      rw [filter_range'_of_firstOf_eq_none hfirst]
      exact ⟨_, .stop (Prod.ext (hnone h hfirst) rfl)⟩
    | some m =>
      obtain ⟨found, hnext, hfound, hinv⟩ := hsome h hfirst
      obtain ⟨hle, hlt, -⟩ := Search.firstOf_eq_some_iff.1 hfirst
      obtain ⟨last, hrest⟩ := ih _ (by omega) hinv rfl
      have hrange : n + (2 * mask.size - n) - (m + 1) = 2 * mask.size - (m + 1) := by omega
      rw [filter_range'_of_firstOf_eq_some hfirst, hrange]
      exact ⟨last, .round hnext hfound.tour?_eq hrest⟩

/-- If the search goes from start to start of a kind, then there is one tour for each of them. -/
theorem exists_loop_map_startList {P : Position → Prop} {Inv : ℕ → Tracer → Prop}
    (hnone : ∀ {n tracer}, Inv n tracer →
      (∀ e, mask.IsStart connectivity e → P e → mask.slot e < n) →
        tracer.nextBoundary.1 = false)
    (hsome : ∀ {n tracer e}, Inv n tracer → mask.IsNextStart connectivity P n e →
      ∃ found, tracer.nextBoundary = (true, found) ∧
        found.IsFoundAt mask connectivity level e ∧ Inv (mask.slot e + 1) (found.scanned e))
    {tracer : Tracer} (h : Inv 0 tracer) :
    ∃ last, tracer.Loop ((mask.startList connectivity P).map (mask.tour connectivity level))
      last := by
  obtain ⟨last, hloop⟩ := exists_loop_of_invariant
    (fun hinv hfirst ↦ hnone hinv fun e he hP ↦ Mask.slot_lt_of_firstOf_eq_none hfirst he hP)
    (fun {n tracer m} hinv hfirst ↦ by
      have hnext := Mask.isNextStart_of_firstOf_eq_some hfirst
      have hstep := hsome hinv hnext
      rwa [mask.slot_atSlot] at hstep) h
  refine ⟨last, ?_⟩
  rw [Mask.startList, List.map_map, List.range_eq_range']
  exact hloop

end Rounds

end Tracer

end ContourTracing
