import Mathlib.Logic.Relation
import ContourTracing.Proofs.ScanSteps

/-!
# What tracers can come to

Every operation changes the tracer of a stack by elementary changes, if at all: it is put on a
side, makes a step, searches, resets its counters or is given other settings. Buffers may be
shared, so that others may write to them between two operations. What every elementary change keeps
is kept by any sequence of operations.
-/

namespace ContourTracing

/-- The buffers that a memory writes to. -/
def Memory.buffers : Memory → List Cells
  | nothing => []
  | brackets pair _ _ => pair.first :: pair.second.toList
  | filled cells => [cells]

/-- The same memory with other cells in its buffers. -/
inductive Memory.IsRewritten : Memory → Memory → Prop
  | nothing : IsRewritten .nothing .nothing
  | brackets {pair pair' : BracketPair} {active : BoundaryKind} {level : Int}
    (first : pair'.first.size = pair.first.size)
    (second : pair'.second.map Array.size = pair.second.map Array.size) :
    IsRewritten (.brackets pair active level) (.brackets pair' active level)
  | filled {cells cells' : Cells} (size : cells'.size = cells.size) :
    IsRewritten (.filled cells) (.filled cells')

theorem Memory.IsRewritten.mode_eq {memory memory' : Memory} (h : memory.IsRewritten memory') :
    memory'.mode = memory.mode := by
  cases h <;> rfl

namespace Tracer

inductive Change : Tracer → Tracer → Prop
  | place {tracer : Tracer} {position : Position} :
    tracer.mask.Contains position.x position.y → Change tracer (tracer.place position)
  | next {tracer next : Tracer} : tracer.next = .ok next → Change tracer next
  | search (tracer : Tracer) : Change tracer tracer.nextBoundary.2
  | reset (tracer : Tracer) : Change tracer tracer.resetCounters
  | settings (tracer : Tracer) (interval : Nat) (line : ContourLine) :
    Change tracer { tracer with interval := interval, line := line }
  | rewrite {tracer : Tracer} {memory : Memory} :
    tracer.memory.IsRewritten memory → Change tracer { tracer with memory := memory }

/-- Any number of changes. -/
abbrev Changes : Tracer → Tracer → Prop :=
  Relation.ReflTransGen Change

/-- What every change keeps holds after any number of them. -/
theorem Changes.invariant {tracer reached : Tracer} (h : tracer.Changes reached)
    (Inv : Tracer → Prop)
    (hchange : ∀ tracer changed, Change tracer changed → Inv tracer → Inv changed)
    (hinv : Inv tracer) : Inv reached := by
  induction h with
  | refl => exact hinv
  | tail _ hlast ih => exact hchange _ _ hlast ih

end Tracer

namespace Stack

variable {stack reached : Stack}

/-! ## The changes that an operation makes -/

theorem changes_next (h : stack.next = .ok reached) : stack.tracer.Changes reached.tracer :=
  .single (.next (tracer_next h))

theorem changes_nextTimes (times : Nat) (stack : Stack) :
    stack.tracer.Changes (stack.nextTimes times).2.tracer := by
  induction times generalizing stack with
  | zero => exact .refl
  | succ times ih =>
    rw [nextTimes]
    split
    · next next hnext => exact (changes_next hnext).trans (ih next)
    · exact .refl

theorem changes_scan (context : Context) (interval : Nat) (stack : Stack) :
    stack.tracer.Changes (stack.scan context interval).stack.tracer := by
  obtain ⟨count, -, htimes⟩ :=
    exists_nextTimes_scanFrom context interval (stack.patience context interval) 0 stack
  have hchanges := changes_nextTimes count stack
  rwa [htimes] at hchanges

theorem changes_trace (line : Value) (context : Context) (interval : Nat) (stack : Stack) :
    stack.tracer.Changes (stack.trace line context interval).stack.tracer := by
  obtain ⟨count, htimes⟩ := exists_nextTimes_traceFrom line context interval
    (stack.patience context interval) #[] stack
  have hchanges := changes_nextTimes count stack
  rwa [htimes] at hchanges

theorem changes_goTo {x y : Int} {side : Side} (h : stack.goTo x y side = .ok reached) :
    stack.tracer.Changes reached.tracer := by
  obtain ⟨hcontains, htracer⟩ := tracer_goTo h
  rw [htracer]
  exact .single (.place hcontains)

/-- Values that are accepted are coordinates and a side. -/
theorem exists_goTo_of_goToValues {x y side : Value} (h : stack.goToValues x y side = .ok reached) :
    ∃ column row side, stack.goTo column row side = .ok reached := by
  simp only [goToValues, bind, Except.bind] at h
  cases hside : Side.ofValue side with
  | error fault => simp [hside] at h
  | ok side =>
    cases hx : coordinateOfValue "x" x with
    | error fault => simp [hside, hx] at h
    | ok column =>
      cases hy : coordinateOfValue "y" y with
      | error fault => simp [hside, hx, hy] at h
      | ok row =>
        simp only [hside, hx, hy] at h
        exact ⟨column, row, side, h⟩

theorem changes_change {result : Except Fault Stack}
    (h : ∀ reached, result = .ok reached → stack.tracer.Changes reached.tracer) :
    stack.tracer.Changes (stack.change result).stack.tracer := by
  cases result with
  | error fault => exact .refl
  | ok reached => exact h reached rfl

/-- Only a tracer without layers is given other settings. -/
theorem changes_configure {change : Tracer → Except Fault Tracer}
    (hchange : ∀ tracer changed, change tracer = .ok changed → tracer.Changes changed)
    (h : stack.configure change = .ok reached) : stack.tracer.Changes reached.tracer := by
  obtain ⟨layers, tracer⟩ := stack
  cases layers with
  | nil =>
    simp only [configure, bind, Except.bind] at h
    split at h
    · cases h
    · next changed hchanged =>
      cases h
      exact hchange tracer changed hchanged
  | cons layer layers => cases h

theorem changes_perform (stack : Stack) (operation : Operation) :
    stack.tracer.Changes (stack.perform operation).stack.tracer := by
  cases operation with
  | nextBoundary => exact .single (.search stack.tracer)
  | next times => exact changes_nextTimes times stack
  | goTo x y side =>
    apply changes_change
    intro reached hreached
    obtain ⟨column, row, side, hgoTo⟩ := exists_goTo_of_goToValues hreached
    exact changes_goTo hgoTo
  | reset => exact .single (.reset stack.tracer)
  | scan context interval =>
    rw [perform]
    split
    · exact .refl
    · exact changes_scan _ _ stack
  | trace line context interval =>
    simp only [perform]
    split
    · exact .refl
    · exact changes_trace _ _ _ stack
  | setInterval value =>
    refine changes_change fun reached ↦ changes_configure fun tracer changed hchanged ↦ ?_
    simp only [bind, Except.bind] at hchanged
    split at hchanged
    · cases hchanged
    · cases hchanged
      exact .single (.settings tracer _ tracer.line)
  | setLine value =>
    refine changes_change fun reached ↦ changes_configure fun tracer changed hchanged ↦ ?_
    simp only [bind, Except.bind] at hchanged
    split at hchanged
    · cases hchanged
    · cases hchanged
      exact .single (.settings tracer tracer.interval _)
  | _ => exact .refl

/-! ## Sequences of operations -/

/-- What a stack can come to: operations are performed on it, one after the other, and between them
others may write to the buffers of its tracer. -/
inductive Reaches (stack : Stack) : Stack → Prop
  | refl : Reaches stack stack
  | perform {reached : Stack} (operation : Operation) :
    Reaches stack reached → Reaches stack (reached.perform operation).stack
  | rewrite {reached : Stack} {memory : Memory} :
    Reaches stack reached → reached.tracer.memory.IsRewritten memory →
      Reaches stack ⟨reached.layers, { reached.tracer with memory := memory }⟩

theorem Reaches.changes (h : stack.Reaches reached) : stack.tracer.Changes reached.tracer := by
  induction h with
  | refl => exact .refl
  | perform operation _ ih => exact ih.trans (changes_perform _ operation)
  | rewrite _ hmemory ih => exact ih.tail (.rewrite hmemory)

end Stack

end ContourTracing
