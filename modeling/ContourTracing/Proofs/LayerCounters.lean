import Mathlib.Data.List.Basic
import Mathlib.Logic.Function.Iterate
import ContourTracing.Proofs.Coverage
import ContourTracing.Proofs.Fresh
import ContourTracing.Proofs.Reachable

/-!
# The counters of layers

A counting layer counts the rotations once more that the tracer counts itself. Both begin again at
zero when the counters are reset, and every step that is made goes through all layers, those of
scans as well. So the counts stay equal, however many layers there are and whatever is called, as
long as no step is asked for when the boundary is finished: the tracer stays where it is then, but a
layer counts its last step again.

A move resets a layer more than once. The innermost layer resets itself when it has moved the
tracer, the next one resets itself and the innermost one, and so on outward.
-/

namespace ContourTracing

namespace Layer

/-- A layer that has counted nothing and has not been reset yet. -/
def IsNew : Layer → Prop
  | plain resets => resets = 0
  | counting rotations resets => rotations = 0 ∧ resets = 0

theorem isNew_new (isCounting : Bool) : (new isCounting).IsNew := by
  cases isCounting with
  | false => exact rfl
  | true => exact ⟨rfl, rfl⟩

@[simp]
theorem resets_reset (layer : Layer) : layer.reset.resets = layer.resets + 1 := by
  cases layer <;> rfl

theorem resets_iterate_reset (layer : Layer) (count : ℕ) :
    (reset^[count] layer).resets = layer.resets + count := by
  induction count with
  | zero => rfl
  | succ count ih => rw [Function.iterate_succ_apply', resets_reset, ih, Nat.add_assoc]

theorem iterate_reset_counting (rotations resets count : ℕ) :
    reset^[count + 1] (counting rotations resets) = counting 0 (resets + (count + 1)) := by
  induction count with
  | zero => rfl
  | succ count ih => rw [Function.iterate_succ_apply', ih, reset, Nat.add_assoc]

theorem eq_zero_of_reset_eq {layer : Layer} {rotations resets : ℕ}
    (h : layer.reset = counting rotations resets) : rotations = 0 := by
  cases layer with
  | plain => cases h
  | counting =>
    cases h
    rfl

/-! ## Single resets -/

/-- The layers that reset themselves when the outermost of so many layers resets its counters, each
by the number of layers inside it. -/
def resetCalls : ℕ → List ℕ
  | 0 => []
  | count + 1 => count :: resetCalls count

/-- The layers that reset themselves when the outermost of so many layers is moved: it moves what
is inside it and then resets its counters. -/
def moveCalls : ℕ → List ℕ
  | 0 => []
  | count + 1 => moveCalls count ++ resetCalls (count + 1)

/-- Layers reset themselves in turn, each called by the number of layers inside it. -/
def carryOut (calls : List ℕ) (layers : List Layer) : List Layer :=
  (calls.foldl (fun inside i ↦ inside.modify i reset) layers.reverse).reverse

theorem count_resetCalls (count i : ℕ) :
    (resetCalls count).count i = if i < count then 1 else 0 := by
  induction count with
  | zero => rfl
  | succ count ih =>
    rw [resetCalls, List.count_cons, ih]
    grind

theorem count_moveCalls (count i : ℕ) : (moveCalls count).count i = count - i := by
  induction count with
  | zero => simp [moveCalls]
  | succ count ih =>
    rw [moveCalls, List.count_append, ih, count_resetCalls]
    grind

theorem getElem?_foldl_modify {α : Type} (f : α → α) (calls : List ℕ) (items : List α) (i : ℕ) :
    (calls.foldl (fun items call ↦ items.modify call f) items)[i]? =
      items[i]?.map f^[calls.count i] := by
  induction calls generalizing items with
  | nil => simp
  | cons call calls ih =>
    rw [List.foldl_cons, ih, List.getElem?_modify, List.count_cons]
    by_cases heq : call = i
    · simp [heq, Option.map_map, Function.comp_def]
    · simp [heq]

theorem getElem?_reverse_carryOut (calls : List ℕ) (layers : List Layer) (i : ℕ) :
    (carryOut calls layers).reverse[i]? = layers.reverse[i]?.map reset^[calls.count i] := by
  rw [carryOut, List.reverse_reverse, getElem?_foldl_modify]

theorem eq_carryOut {calls : List ℕ} {layers layers' : List Layer}
    (h : ∀ i, layers'.reverse[i]? = layers.reverse[i]?.map reset^[calls.count i]) :
    layers' = carryOut calls layers := by
  apply List.reverse_injective
  apply List.ext_getElem?
  intro i
  rw [h, getElem?_reverse_carryOut]

/-- A reset of the outermost layer resets every layer once. -/
theorem layers_resetCounters (stack : Stack) :
    stack.resetCounters.layers = carryOut (resetCalls stack.layers.length) stack.layers := by
  apply eq_carryOut
  intro i
  rw [Stack.resetCounters, ← List.map_reverse, List.getElem?_map, count_resetCalls]
  by_cases hi : i < stack.layers.length
  · rw [if_pos hi, Function.iterate_one]
  · rw [List.getElem?_eq_none (by simpa using hi)]
    rfl

theorem length_resetAfterMove (layers : List Layer) :
    (Stack.resetAfterMove layers).length = layers.length := by
  induction layers with
  | nil => rfl
  | cons layer inner ih =>
    rw [Stack.resetAfterMove, List.length_cons, List.length_map, ih, List.length_cons]

theorem getElem?_reverse_resetAfterMove (layers : List Layer) (i : ℕ) :
    (Stack.resetAfterMove layers).reverse[i]? =
      layers.reverse[i]?.map reset^[layers.length - i] := by
  induction layers with
  | nil => simp [Stack.resetAfterMove]
  | cons layer inner ih =>
    rw [Stack.resetAfterMove, List.reverse_cons, List.reverse_cons, ← List.map_reverse,
      List.getElem?_append, List.getElem?_append, List.getElem?_map, ih, List.length_map,
      List.length_reverse, List.length_reverse, length_resetAfterMove, List.length_cons]
    by_cases hi : i < inner.length
    · -- once more than without the outermost layer
      rw [if_pos hi, if_pos hi, Option.map_map, ← Function.iterate_succ',
        Nat.succ_sub (Nat.le_of_lt hi)]
    · rw [if_neg hi, if_neg hi]
      rcases Nat.eq_or_lt_of_not_lt hi with heq | hgt
      · simp [heq]
      · rw [List.getElem?_eq_none (by simp; omega), List.getElem?_eq_none (by simp; omega)]
        rfl

/-- Moving the outermost layer resets the layers one after the other. -/
theorem resetAfterMove_eq_carryOut (layers : List Layer) :
    Stack.resetAfterMove layers = carryOut (moveCalls layers.length) layers := by
  apply eq_carryOut
  intro i
  rw [getElem?_reverse_resetAfterMove, count_moveCalls]

end Layer

namespace Stack

variable {stack reached : Stack}

/-- Every counting layer has counted as many rotations as the tracer. -/
def CountersAgree (stack : Stack) : Prop :=
  ∀ rotations resets, Layer.counting rotations resets ∈ stack.layers →
    rotations = stack.tracer.tally.rotations

/-! ## One call -/

theorem countersAgree_resetCounters (stack : Stack) : stack.resetCounters.CountersAgree := by
  intro rotations resets hmem
  obtain ⟨layer, -, hreset⟩ := List.mem_map.1 hmem
  exact Layer.eq_zero_of_reset_eq hreset

/-- Wherever a tracer has been moved, all counts are zero. -/
theorem countersAgree_resetAfterMove (layers : List Layer) {tracer : Tracer}
    (h : tracer.tally = {}) : CountersAgree ⟨resetAfterMove layers, tracer⟩ := by
  intro rotations resets hmem
  rw [h]
  cases layers with
  | nil => cases hmem
  | cons layer inner =>
    rcases List.mem_cons.1 hmem with heq | hinner
    · exact Layer.eq_zero_of_reset_eq heq.symm
    · obtain ⟨layer, -, hreset⟩ := List.mem_map.1 hinner
      exact Layer.eq_zero_of_reset_eq hreset

/-- A step is counted by the tracer and by every layer, or by none of them. -/
theorem CountersAgree.step {next : Stack} (hagree : stack.CountersAgree)
    (hfinished : stack.isFinished = false) (h : stack.next = .ok next) : next.CountersAgree := by
  obtain ⟨layers, tracer⟩ := stack
  cases hplacement : tracer.placement with
  | none => simp [Stack.next, Tracer.next, hplacement] at h
  | some placement =>
    -- on a finished boundary the layers would count the last step once more
    have hopen : placement.isFinished = false := by
      simpa [isFinished, Tracer.isFinished, hplacement] using hfinished
    simp only [Stack.next, Tracer.next, hplacement, hopen] at h
    cases h
    intro rotations resets hmem
    obtain ⟨layer, hlayer, hstep⟩ := List.mem_map.1 hmem
    cases layer with
    | plain => cases hstep
    | counting before =>
      cases hstep
      rw [hagree before resets hlayer]
      rfl

/-- A scan only steps on from sides where the boundary is not finished. -/
theorem CountersAgree.scanFrom (hagree : stack.CountersAgree) (context : Context)
    (interval fuel steps : ℕ) :
    (stack.scanFrom context interval fuel steps).stack.CountersAgree := by
  induction fuel generalizing stack steps with
  | zero => exact hagree
  | succ fuel ih =>
    rw [Stack.scanFrom]
    split
    · exact hagree
    · next hfinished =>
      split
      · exact hagree
      · next next hnext =>
        have hstep := hagree.step (Bool.eq_false_iff.2 hfinished) hnext
        split
        · exact hstep
        · exact ih hstep (steps + 1)

theorem length_layers_nextTimes (times : ℕ) (stack : Stack) :
    (stack.nextTimes times).2.layers.length = stack.layers.length := by
  induction times generalizing stack with
  | zero => rfl
  | succ times ih =>
    rw [nextTimes]
    split
    · next next hnext =>
      rw [ih next]
      simp only [Stack.next] at hnext
      split at hnext
      · cases hnext
        exact List.length_map ..
      · cases hnext
    · rfl

theorem length_layers_scan (context : Context) (interval : ℕ) (stack : Stack) :
    (stack.scan context interval).stack.layers.length = stack.layers.length := by
  obtain ⟨count, -, htimes⟩ :=
    exists_nextTimes_scanFrom context interval (stack.patience context interval) 0 stack
  have hlength := length_layers_nextTimes count stack
  rwa [htimes] at hlength

/-! ## Sequences of calls -/

/-- The calls that move the tracer or reset its counters. A step is asked for only as long as the
boundary is not finished. -/
inductive Accepts (stack : Stack) : Operation → Prop
  | goTo (x y side : Value) : Accepts stack (.goTo x y side)
  | nextBoundary : Accepts stack .nextBoundary
  | reset : Accepts stack .reset
  | scan (context : Context) (interval : Value) : Accepts stack (.scan context interval)
  | next : stack.isFinished = false → Accepts stack (.next 1)

/-- What a stack comes to by such calls of its outermost layer. -/
inductive Drives (stack : Stack) : Stack → Prop
  | refl : Drives stack stack
  | perform {reached : Stack} {operation : Operation} :
    Drives stack reached → reached.Accepts operation →
      Drives stack (reached.perform operation).stack

/-- A move of the outermost layer leaves all counts at zero. It has reset the layers by single
resets, and a layer as many times as there are layers from it outward. -/
structure IsMovedTo (stack moved : Stack) : Prop where
  length_eq : moved.layers.length = stack.layers.length
  countersAgree : moved.CountersAgree
  layers_eq : moved.layers = Layer.carryOut (Layer.moveCalls stack.layers.length) stack.layers
  count_eq : ∀ i < stack.layers.length,
    (Layer.moveCalls stack.layers.length).count i = stack.layers.length - i
  counting_eq : ∀ i rotations resets,
    stack.layers.reverse[i]? = some (Layer.counting rotations resets) →
      moved.layers.reverse[i]? = some (Layer.counting 0 (resets + (stack.layers.length - i)))
  resets_eq : ∀ i layer, stack.layers.reverse[i]? = some layer →
    moved.layers.reverse[i]?.map Layer.resets = some (layer.resets + (stack.layers.length - i))

theorem isMovedTo_resetAfterMove (stack : Stack) {tracer : Tracer} (h : tracer.tally = {}) :
    stack.IsMovedTo ⟨resetAfterMove stack.layers, tracer⟩ where
  length_eq := Layer.length_resetAfterMove stack.layers
  countersAgree := countersAgree_resetAfterMove stack.layers h
  layers_eq := Layer.resetAfterMove_eq_carryOut stack.layers
  count_eq i _ := Layer.count_moveCalls stack.layers.length i
  counting_eq i rotations resets hlayer := by
    obtain ⟨hi, -⟩ := List.getElem?_eq_some_iff.1 hlayer
    rw [List.length_reverse] at hi
    obtain ⟨count, hcount⟩ := Nat.exists_eq_add_of_lt hi
    have hsub : stack.layers.length - i = count + 1 := by omega
    rw [Layer.getElem?_reverse_resetAfterMove, hlayer, Option.map_some, hsub,
      Layer.iterate_reset_counting]
  resets_eq i layer hlayer := by
    rw [Layer.getElem?_reverse_resetAfterMove, hlayer, Option.map_some, Option.map_some,
      Layer.resets_iterate_reset]

theorem isMovedTo_goTo {x y side : Value} {answer : Answer}
    (h : (stack.perform (.goTo x y side)).result = .ok answer) :
    stack.IsMovedTo (stack.perform (.goTo x y side)).stack := by
  rw [perform] at h ⊢
  cases hvalues : stack.goToValues x y side with
  | error fault =>
    rw [hvalues] at h
    cases h
  | ok moved =>
    obtain ⟨column, row, side, hgoTo⟩ := exists_goTo_of_goToValues hvalues
    rw [Stack.goTo] at hgoTo
    split at hgoTo
    · next tracer htracer =>
      cases hgoTo
      obtain ⟨-, rfl⟩ := stack.tracer.goTo_eq_ok_iff.1 htracer
      exact stack.isMovedTo_resetAfterMove rfl
    · cases hgoTo

theorem stack_perform_goTo_of_error {x y side : Value} {fault : Fault}
    (h : (stack.perform (.goTo x y side)).result = .error fault) :
    (stack.perform (.goTo x y side)).stack = stack := by
  rw [perform] at h ⊢
  cases hvalues : stack.goToValues x y side with
  | error fault => rfl
  | ok moved =>
    rw [hvalues] at h
    cases h

theorem isMovedTo_nextBoundary (stack : Stack) :
    stack.IsMovedTo (stack.perform .nextBoundary).stack :=
  stack.isMovedTo_resetAfterMove rfl

/-- Every call keeps the counts equal, or makes them all zero. -/
theorem CountersAgree.perform (hagree : stack.CountersAgree) {operation : Operation}
    (h : stack.Accepts operation) : (stack.perform operation).stack.CountersAgree := by
  cases h with
  | goTo x y side =>
    cases hresult : (stack.perform (.goTo x y side)).result with
    | error fault =>
      rw [stack_perform_goTo_of_error hresult]
      exact hagree
    | ok answer => exact (isMovedTo_goTo hresult).countersAgree
  | nextBoundary => exact stack.isMovedTo_nextBoundary.countersAgree
  | reset => exact stack.countersAgree_resetCounters
  | scan context interval =>
    simp only [Stack.perform]
    split
    · exact hagree
    · exact hagree.scanFrom context _ _ 0
  | next hfinished =>
    simp only [Stack.perform, nextTimes]
    split
    · next next hnext => exact hagree.step hfinished hnext
    · exact hagree

theorem length_layers_perform {operation : Operation} (h : stack.Accepts operation) :
    (stack.perform operation).stack.layers.length = stack.layers.length := by
  cases h with
  | goTo x y side =>
    cases hresult : (stack.perform (.goTo x y side)).result with
    | error fault => rw [stack_perform_goTo_of_error hresult]
    | ok answer => exact (isMovedTo_goTo hresult).length_eq
  | nextBoundary => exact stack.isMovedTo_nextBoundary.length_eq
  | reset => exact List.length_map ..
  | scan context interval =>
    simp only [Stack.perform]
    split
    · rfl
    · exact length_layers_scan _ _ stack
  | next => exact length_layers_nextTimes 1 stack

/-- A stack before its first call: the layers are new, and no rotation has been counted yet. -/
structure IsNew (stack : Stack) : Prop where
  layers : ∀ layer ∈ stack.layers, layer.IsNew
  rotations_eq : stack.tracer.tally.rotations = 0

theorem isNew_of_tally {tracer : Tracer} (h : tracer.tally = {}) (kinds : List Bool) :
    IsNew ⟨kinds.map Layer.new, tracer⟩ where
  layers := List.forall_mem_map.2 fun isCounting _ ↦ Layer.isNew_new isCounting
  rotations_eq := congrArg Tally.rotations h

/-- Layers are new when they are put around a tracer as it has been made. -/
theorem isNew_of_make {source : MatrixSource} {connectivity : Value} {buffers : BufferChoice}
    {tracer : Tracer} (h : Tracer.make source connectivity buffers = .ok tracer)
    (kinds : List Bool) : IsNew ⟨kinds.map Layer.new, tracer⟩ :=
  isNew_of_tally (Tracer.memory_eq_of_make h).2.2 kinds

theorem isNew_of_settings {source : MatrixSource} {settings : Settings} {tracer : Tracer}
    (h : Tracer.ofSettings source settings = .ok tracer) (kinds : List Bool) :
    IsNew ⟨kinds.map Layer.new, tracer⟩ :=
  isNew_of_tally (Tracer.memory_eq_of_settings h).2.2 kinds

theorem IsNew.countersAgree (h : stack.IsNew) : stack.CountersAgree := by
  intro rotations resets hmem
  rw [h.rotations_eq]
  exact (h.layers _ hmem).1

/-- Counts that are equal once stay equal. -/
theorem Drives.countersAgree (h : stack.Drives reached) (hagree : stack.CountersAgree) :
    reached.CountersAgree := by
  induction h with
  | refl => exact hagree
  | perform _ haccepts ih => exact ih.perform haccepts

theorem Drives.length_eq (h : stack.Drives reached) :
    reached.layers.length = stack.layers.length := by
  induction h with
  | refl => rfl
  | perform _ haccepts ih => exact (length_layers_perform haccepts).trans ih

/-- However layers are driven, the counts of new layers are those of the tracer after every call,
and so are all counts that agree with it once, as they do after a move. A reset resets every layer
once. A move resets each layer as many times as there are layers from it outward, whether or not a
search has found anything, and a move that fails leaves everything as it was. -/
theorem counters_of_drives (h : stack.Drives reached) :
    (stack.IsNew → reached.CountersAgree) ∧ (stack.CountersAgree → reached.CountersAgree) ∧
      reached.layers.length = stack.layers.length ∧
        (reached.perform .reset).stack.layers =
            Layer.carryOut (Layer.resetCalls reached.layers.length) reached.layers ∧
        reached.IsMovedTo (reached.perform .nextBoundary).stack ∧
          ∀ x y side,
            (∀ answer, (reached.perform (.goTo x y side)).result = .ok answer →
              reached.IsMovedTo (reached.perform (.goTo x y side)).stack) ∧
            ∀ fault, (reached.perform (.goTo x y side)).result = .error fault →
              (reached.perform (.goTo x y side)).stack = reached := by
  refine ⟨fun hnew ↦ ?_, h.countersAgree, h.length_eq, Layer.layers_resetCounters reached,
    reached.isMovedTo_nextBoundary,
    fun x y side ↦ ⟨fun answer ↦ isMovedTo_goTo, fun fault ↦ stack_perform_goTo_of_error⟩⟩
  exact h.countersAgree hnew.countersAgree

/-- A scan is stopped after three steps, and a step follows. -/
theorem counters_of_drives_target :
    let stack : Stack := ⟨[true, false, true].map Layer.new,
      .new .target (.member (.policy .background)) .diagonal (.fresh Mask.target.size .all)⟩
    let found := (stack.perform .nextBoundary).stack
    let cut := (found.perform (.scan (.stopping .cancelled) (.int 3))).stack
    let reached := (cut.perform (.next 1)).stack
    stack.IsNew ∧ stack.Drives reached ∧
      reached.layers = [.counting 1 1, .plain 2, .counting 1 3] ∧ reached.CountersAgree ∧
        reached.IsMovedTo (reached.perform .nextBoundary).stack := by
  intro stack found cut reached
  have hmake : Tracer.make (.dense ⟨[5, 5], Mask.target.bits, rfl⟩)
      (.member (.connectivity .diagonal)) (.pair none none false) = .ok stack.tracer := rfl
  have hnew : stack.IsNew := isNew_of_make hmake [true, false, true]
  have hfinished : cut.isFinished = false := by decide +kernel
  have hfound : stack.Drives found := .perform .refl .nextBoundary
  have hcut : stack.Drives cut := .perform hfound (.scan (.stopping .cancelled) (.int 3))
  have hdrives : stack.Drives reached := .perform hcut (.next hfinished)
  obtain ⟨hagree, -, -, -, hmoved, -⟩ := counters_of_drives hdrives
  have hlayers : reached.layers = [.counting 1 1, .plain 2, .counting 1 3] := by decide +kernel
  exact ⟨hnew, hdrives, hlayers, hagree hnew, hmoved⟩

end Stack

end ContourTracing
