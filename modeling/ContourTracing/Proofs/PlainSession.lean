import ContourTracing.Proofs.Transparency
import ContourTracing.Session.Command

/-!
# Sessions without counters of layers

In a session a tracer and the layers around it are objects of their own, and so are the buffers in
which it works. `Session.plain` forgets what the layers have counted. All that an operation reads
is found in the plain session too, and putting back a stack changes nothing there but the tracer
and its buffers.
-/

namespace ContourTracing

/-- The object without what a layer has counted. -/
def SessionObject.plain : SessionObject → SessionObject
  | .layer _ inner => .layer (.new false) inner
  | object => object

/-- What layers and tracers lead to: the object inside, or nothing further. -/
def SessionObject.link? : SessionObject → Option (Option Nat)
  | .layer _ inner => some (some inner)
  | .tracer _ _ => some none
  | _ => none

namespace Session

variable {session session' : Session} {tracer : Tracer} {buffers : BufferUse}
  {number base fuel : Nat} {name : String}

/-- The session without what its layers have counted. -/
def plain (session : Session) : Session :=
  ⟨session.objects.map SessionObject.plain, session.names⟩

@[simp]
theorem find?_plain (session : Session) (name : String) :
    session.plain.find? name = session.find? name := rfl

@[simp]
theorem size_plain (session : Session) : session.plain.objects.size = session.objects.size :=
  Array.size_map

theorem getElem?_plain (session : Session) (number : Nat) :
    session.plain.objects[number]? = session.objects[number]?.map SessionObject.plain :=
  Array.getElem?_map

theorem getElem?_plain_eq_tracer_iff :
    session.plain.objects[number]? = some (.tracer tracer buffers) ↔
      session.objects[number]? = some (.tracer tracer buffers) := by
  rw [getElem?_plain, Option.map_eq_some_iff]
  constructor
  · rintro ⟨object, hobject, hplain⟩
    cases object <;> simp_all [SessionObject.plain]
  · intro h
    exact ⟨_, h, rfl⟩

/-! ## Reading a session -/

@[simp]
theorem cells?_plain (session : Session) (number : Nat) :
    session.plain.cells? number = session.cells? number := by
  simp only [cells?, getElem?_plain]
  cases session.objects[number]? with
  | none => rfl
  | some object => cases object <;> rfl

@[simp]
theorem load_plain (session : Session) (tracer : Tracer) (buffers : BufferUse) :
    session.plain.load tracer buffers = session.load tracer buffers := by
  have hcells : session.plain.cells? = session.cells? := funext session.cells?_plain
  simp only [load, hcells]

theorem cancellation_plain (session : Session) (name : String) :
    session.plain.cancellation name = session.cancellation name := by
  simp only [cancellation, find?_plain, getElem?_plain]
  cases session.find? name with
  | none => rfl
  | some number =>
    cases hobject : session.objects[number]? with
    | none => simp [hobject]
    | some object => cases object <;> simp [hobject, SessionObject.plain]

@[simp]
theorem contextOf_plain (session : Session) (choice : ContextChoice) :
    session.plain.contextOf choice = session.contextOf choice := by
  cases choice <;> simp [contextOf, cancellation_plain]

/-! ## From layer to layer -/

/-- What the object of a number leads to. -/
def link? (session : Session) (number : Nat) : Option (Option Nat) :=
  session.objects[number]?.bind SessionObject.link?

/-- The number of the tracer within the layers of an object. -/
def base? (session : Session) (number : Nat) : Option Nat :=
  (session.descend (session.objects.size + 1) number).map (·.2)

theorem map_descend_succ (session : Session) (fuel number : Nat) :
    (session.descend (fuel + 1) number).map (·.2) =
      match session.link? number with
      | some none => some number
      | some (some inner) => (session.descend fuel inner).map (·.2)
      | none => none := by
  rw [descend, link?]
  cases session.objects[number]? with
  | none => rfl
  | some object =>
    cases object with
    | layer layer inner =>
      simp only [Option.bind_some, SessionObject.link?]
      cases session.descend fuel inner <;> rfl
    | _ => rfl

theorem map_descend_congr (h : ∀ number, session.link? number = session'.link? number)
    (fuel number : Nat) :
    (session.descend fuel number).map (·.2) = (session'.descend fuel number).map (·.2) := by
  induction fuel generalizing number with
  | zero => rfl
  | succ fuel ih =>
    rw [map_descend_succ, map_descend_succ, h]
    cases session'.link? number with
    | none => rfl
    | some link =>
      cases link with
      | none => rfl
      | some inner => exact ih inner

/-- The names stand for the same objects, which lead to the same objects. -/
structure IsLinkedAs (session session' : Session) : Prop where
  names_eq : session.names = session'.names
  size_eq : session.objects.size = session'.objects.size
  link?_eq : ∀ number, session.link? number = session'.link? number

theorem IsLinkedAs.trans {session'' : Session} (h : session.IsLinkedAs session')
    (h' : session'.IsLinkedAs session'') : session.IsLinkedAs session'' :=
  ⟨h.names_eq.trans h'.names_eq, h.size_eq.trans h'.size_eq,
    fun number ↦ (h.link?_eq number).trans (h'.link?_eq number)⟩

theorem IsLinkedAs.base?_eq (h : session.IsLinkedAs session') (number : Nat) :
    session.base? number = session'.base? number := by
  rw [base?, base?, h.size_eq, map_descend_congr h.link?_eq]

theorem isLinkedAs_plain (session : Session) : session.plain.IsLinkedAs session := by
  refine ⟨rfl, session.size_plain, fun number ↦ ?_⟩
  rw [link?, link?, getElem?_plain]
  cases session.objects[number]? with
  | none => rfl
  | some object => cases object <;> rfl

@[simp]
theorem base?_plain (session : Session) (number : Nat) :
    session.plain.base? number = session.base? number :=
  session.isLinkedAs_plain.base?_eq number

theorem link?_base (h : session.base? number = some base) :
    session.link? base = some none := by
  unfold base? at h
  generalize session.objects.size + 1 = fuel at h
  induction fuel generalizing number with
  | zero => cases h
  | succ fuel ih =>
    rw [map_descend_succ] at h
    split at h
    · next hlink =>
      cases h
      exact hlink
    · exact ih h
    · cases h

theorem base?_base (h : session.base? number = some base) : session.base? base = some base := by
  rw [base?, map_descend_succ, link?_base h]

theorem exists_tracer_of_base? (h : session.base? number = some base) :
    ∃ tracer buffers, session.objects[base]? = some (.tracer tracer buffers) := by
  obtain ⟨object, hobject, hlink⟩ := Option.bind_eq_some_iff.1 (link?_base h)
  cases object with
  | tracer tracer buffers => exact ⟨tracer, buffers, hobject⟩
  | _ => cases hlink

/-! ## Changing a session -/

theorem plain_update (session : Session) (number : Nat) (object : SessionObject) :
    (session.update number object).plain = session.plain.update number object.plain := by
  simp only [update, plain, Array.map_setIfInBounds]

theorem update_self {object : SessionObject} (h : session.objects[number]? = some object) :
    session.update number object = session := by
  have hobjects : session.objects.setIfInBounds number object = session.objects := by
    apply Array.ext_getElem?
    intro other
    rw [Array.getElem?_setIfInBounds]
    split
    · next hother =>
      subst hother
      rw [if_pos (Array.getElem?_eq_some_iff.1 h).1, h]
    · rfl
  rw [update, hobjects]

/-- In the plain session no layer ever changes. -/
theorem plain_update_layer {layer other : Layer} {inner : Nat}
    (h : session.objects[number]? = some (.layer layer inner)) :
    (session.update number (.layer other inner)).plain = session.plain := by
  rw [plain_update]
  apply update_self
  rw [getElem?_plain, h]
  rfl

theorem plain_foldl {α : Type} {change : Session → α → Session}
    (h : ∀ session entry, (change session entry).plain = session.plain) (entries : List α)
    (session : Session) : (entries.foldl change session).plain = session.plain := by
  induction entries generalizing session with
  | nil => rfl
  | cons entry entries ih => rw [List.foldl_cons, ih, h]

theorem plain_putCells (session : Session) (number : Nat) (cells : Cells) :
    (session.putCells number cells).plain = session.plain.putCells number cells := by
  simp only [putCells, getElem?_plain]
  cases session.objects[number]? with
  | none => rfl
  | some object =>
    cases object with
    | array array => exact plain_update ..
    | _ => rfl

/-- Storing a tracer writes to the same buffers in every session. -/
theorem store_rel {R : Session → Session → Prop}
    (hput : ∀ session session' number cells, R session session' →
      R (session.putCells number cells) (session'.putCells number cells))
    (session session' : Session) (h : R session session') (tracer : Tracer)
    (buffers : BufferUse) : R (session.store tracer buffers) (session'.store tracer buffers) := by
  simp only [store]
  cases buffers with
  | own => exact h
  | one buffer =>
    cases tracer.memory with
    | filled cells => exact hput _ _ _ _ h
    | _ => exact h
  | pair first second =>
    cases tracer.memory with
    | brackets pair active level =>
      obtain ⟨external, internal⟩ := pair
      cases first <;> cases second <;> cases internal <;>
        first | exact h | exact hput _ _ _ _ h | exact hput _ _ _ _ (hput _ _ _ _ h)
    | _ => exact h

theorem plain_store (session : Session) (tracer : Tracer) (buffers : BufferUse) :
    (session.store tracer buffers).plain = session.plain.store tracer buffers := by
  refine store_rel (R := fun session session' ↦ session.plain = session') ?_ _ _ rfl tracer buffers
  rintro session session' number cells rfl
  exact session.plain_putCells number cells

/-- Putting back a stack changes the tracer and its buffers and nothing else of a plain session. -/
theorem plain_putStack (hbase : session.base? number = some base)
    (htracer : session.objects[base]? = some (.tracer tracer buffers)) (stack : Stack) :
    (session.putStack number stack).plain =
      (session.plain.store stack.tracer buffers).update base (.tracer stack.tracer buffers) := by
  obtain ⟨⟨layers, base⟩, hdescend, rfl⟩ := Option.map_eq_some_iff.1 hbase
  simp only [putStack, hdescend]
  generalize hfold : List.foldl _ session (layers.zip stack.layers) = folded
  have hlayers : folded.plain = session.plain := by
    rw [← hfold]
    apply plain_foldl
    rintro session ⟨⟨number, -⟩, layer⟩
    dsimp only
    split
    · next hobject => exact plain_update_layer hobject
    · rfl
  have hbase' : folded.objects[base]? = some (.tracer tracer buffers) := by
    rwa [← getElem?_plain_eq_tracer_iff, hlayers, getElem?_plain_eq_tracer_iff]
  simp only [hbase', plain_update, plain_store, hlayers]
  rfl

/-! ## What a change leaves -/

theorem isLinkedAs_update {object : SessionObject} (h : object.link? = session.link? number) :
    (session.update number object).IsLinkedAs session := by
  refine ⟨rfl, Array.size_setIfInBounds, fun other ↦ ?_⟩
  rw [link?, update, Array.getElem?_setIfInBounds]
  split
  · next hother =>
    subst hother
    split
    · exact h
    · next hsize => rw [link?, Array.getElem?_eq_none (Nat.not_lt.1 hsize)]
  · rfl

theorem isLinkedAs_putCells (session : Session) (number : Nat) (cells : Cells) :
    (session.putCells number cells).IsLinkedAs session := by
  rw [putCells]
  split
  · next array harray =>
    apply isLinkedAs_update
    rw [link?, harray]
    rfl
  · exact ⟨rfl, rfl, fun _ ↦ rfl⟩

theorem isLinkedAs_store (session : Session) (tracer : Tracer) (buffers : BufferUse) :
    (session.store tracer buffers).IsLinkedAs session := by
  refine store_rel (R := fun changed _ ↦ changed.IsLinkedAs session) ?_ session session
    ⟨rfl, rfl, fun _ ↦ rfl⟩ tracer buffers
  exact fun changed _ number cells h ↦ (changed.isLinkedAs_putCells number cells).trans h

/-! ## Names of tracers -/

/-- The name stands for a tracer or for layers around it. -/
structure HasTracer (session : Session) (name : String) (base : Nat) (tracer : Tracer)
    (buffers : BufferUse) : Prop where
  exists_number : ∃ number, session.find? name = some number ∧ session.base? number = some base
  getElem?_eq : session.objects[base]? = some (.tracer tracer buffers)

theorem hasTracer_plain_iff :
    session.plain.HasTracer name base tracer buffers ↔
      session.HasTracer name base tracer buffers := by
  constructor
  · rintro ⟨⟨number, hname, hbase⟩, hobject⟩
    rw [base?_plain] at hbase
    exact ⟨⟨number, hname, hbase⟩, getElem?_plain_eq_tracer_iff.1 hobject⟩
  · rintro ⟨⟨number, hname, hbase⟩, hobject⟩
    rw [← base?_plain] at hbase
    exact ⟨⟨number, hname, hbase⟩, getElem?_plain_eq_tracer_iff.2 hobject⟩

theorem exists_stackAt? (hbase : session.base? number = some base)
    (htracer : session.objects[base]? = some (.tracer tracer buffers)) :
    ∃ stack, session.stackAt? number = some stack ∧ stack.tracer = session.load tracer buffers := by
  obtain ⟨⟨layers, base⟩, hdescend, rfl⟩ := Option.map_eq_some_iff.1 hbase
  refine ⟨⟨layers.map (·.2), session.load tracer buffers⟩, ?_, rfl⟩
  simp only [stackAt?, hdescend, Option.bind_eq_bind, Option.bind_some, htracer]
  rfl

namespace HasTracer

theorem exists_stack (h : session.HasTracer name base tracer buffers) :
    ∃ number stack, session.stack name = .ok (number, stack) ∧
      session.base? number = some base ∧ stack.unwrap = .bare (session.load tracer buffers) := by
  obtain ⟨⟨number, hname, hbase⟩, htracer⟩ := h
  obtain ⟨stack, hstack, hload⟩ := exists_stackAt? hbase htracer
  refine ⟨number, stack, ?_, hbase, by rw [Stack.unwrap, hload]⟩
  simp only [Session.stack, hname, hstack]

/-- After an operation the tracer and its buffers are as without layers. -/
theorem performOn (h : session.HasTracer name base tracer buffers) {operation : Operation}
    (hforwarded : operation.isForwarded = true) :
    let outcome := (Stack.bare (session.load tracer buffers)).perform operation
    (session.performOn name operation).1 = (outcome.result, outcome.warnings) ∧
      (session.performOn name operation).2.plain =
        (session.plain.store outcome.stack.tracer buffers).update base
          (.tracer outcome.stack.tracer buffers) := by
  obtain ⟨number, stack, hstack, hbase, hunwrap⟩ := h.exists_stack
  have hperform := stack.unwrap_perform hforwarded
  rw [hunwrap] at hperform
  rw [hperform]
  simp only [Session.performOn, hstack]
  exact ⟨rfl, plain_putStack hbase h.getElem?_eq _⟩

theorem update_store (h : session.HasTracer name base tracer buffers) (tracer' : Tracer) :
    ((session.store tracer' buffers).update base (.tracer tracer' buffers)).HasTracer name base
      tracer' buffers := by
  obtain ⟨⟨number, hname, hbase⟩, htracer⟩ := h
  have hstore := session.isLinkedAs_store tracer' buffers
  have hlink : session.link? base = some none := link?_base hbase
  have hupdate : ((session.store tracer' buffers).update base
      (.tracer tracer' buffers)).IsLinkedAs session := by
    refine (isLinkedAs_update ?_).trans hstore
    rw [hstore.link?_eq, hlink]
    rfl
  refine ⟨⟨number, ?_, (hupdate.base?_eq number).trans hbase⟩, ?_⟩
  · rw [find?, hupdate.names_eq]
    exact hname
  · have hsize : base < (session.store tracer' buffers).objects.size := by
      rw [hstore.size_eq]
      exact (Array.getElem?_eq_some_iff.1 htracer).1
    rw [update, Array.getElem?_setIfInBounds, if_pos rfl, if_pos hsize]

/-- What can be observed of a stack, but for the counters of layers. -/
theorem status_eq (h : session.HasTracer name base tracer buffers) :
    ((session.find? name).bind session.stackAt?).map (·.unwrap.status) =
      some (Stack.bare (session.load tracer buffers)).status := by
  obtain ⟨⟨number, hname, hbase⟩, htracer⟩ := h
  obtain ⟨stack, hstack, hload⟩ := exists_stackAt? hbase htracer
  rw [hname, Option.bind_some, hstack, Option.map_some, Stack.unwrap, hload]

theorem stateOf_eq (h : session.HasTracer name base tracer buffers) :
    session.stateOf name = (session.load tracer buffers).position.map fun position ↦
      (position, (session.load tracer buffers).lastStep?) := by
  obtain ⟨number, stack, hstack, -, hunwrap⟩ := h.exists_stack
  have htracer : stack.tracer = session.load tracer buffers := congrArg Stack.tracer hunwrap
  simp only [stateOf, hstack, bind, Except.bind, htracer]
  cases (session.load tracer buffers).position <;> rfl

end HasTracer

theorem stackAt?_eq_none (h : session.base? number = none) : session.stackAt? number = none := by
  have hdescend := Option.map_eq_none_iff.1 h
  simp [stackAt?, hdescend]

/-- The same tracer is found in the plain session. -/
theorem map_tracer_stackAt?_plain (session : Session) (number : Nat) :
    (session.plain.stackAt? number).map (·.tracer) =
      (session.stackAt? number).map (·.tracer) := by
  cases hbase : session.base? number with
  | none => rw [stackAt?_eq_none hbase, stackAt?_eq_none ((base?_plain ..).trans hbase)]
  | some base =>
    obtain ⟨tracer, buffers, htracer⟩ := exists_tracer_of_base? hbase
    obtain ⟨stack, hstack, hload⟩ := exists_stackAt? hbase htracer
    obtain ⟨stack', hstack', hload'⟩ := exists_stackAt?
      ((base?_plain ..).trans hbase) (getElem?_plain_eq_tracer_iff.2 htracer)
    rw [hstack, hstack', Option.map_some, Option.map_some, hload, hload', load_plain]

theorem stateOf_plain (session : Session) (name : String) :
    session.plain.stateOf name = session.stateOf name := by
  simp only [stateOf, stack, find?_plain]
  cases session.find? name with
  | none => rfl
  | some number =>
    have hstack := session.map_tracer_stackAt?_plain number
    cases h : session.stackAt? number with
    | none =>
      rw [h, Option.map_none, Option.map_eq_none_iff] at hstack
      simp only [h, hstack]
    | some stack =>
      rw [h, Option.map_some, Option.map_eq_some_iff] at hstack
      obtain ⟨stack', hstack', htracer⟩ := hstack
      simp only [h, hstack', bind, Except.bind, htracer]

end Session

end ContourTracing
