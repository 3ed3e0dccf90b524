import ContourTracing.Proofs.PlainSession

/-!
# Calls on layers in a session

The same calls on a tracer and on layers around it, however many, lead through sessions that are
equal but for what the layers have counted: each call finds the tracer in the same state, does the
same to it and to the buffers, and gets the same reply. Calls may refer to other objects of the
session, the layers and the tracer themselves among them.
-/

namespace ContourTracing

/-- What can be called on a tracer and on layers around it alike. -/
inductive Call where
  | perform (operation : Operation)
  | scan (context : ContextChoice) (interval : Value)
  | trace (line : Value) (context : ContextChoice) (interval : Value)
  | goToSame (other : String)
  | sameState (other : String)

namespace Call

/-- The command that makes the call on the object of a name. -/
def on (name : String) : Call → Command
  | perform operation => .perform name operation
  | scan context interval => .scan name context interval
  | trace line context interval => .trace name line context interval
  | goToSame other => .goToSame name other
  | sameState other => .sameState name other

def isForwarded : Call → Bool
  | perform operation => operation.isForwarded
  | _ => true

theorem name_on (call : Call) (name : String) : (call.on name).name = name := by
  cases call <;> rfl

end Call

/-- The reply without the counters of layers. -/
def Reply.plain (reply : Reply) : Reply :=
  ⟨reply.result, reply.warnings, reply.status.map fun status ↦ { status with counters := none }⟩

namespace Session

/-- Two sessions that are equal but for what layers have counted, with a name in each of them that
stands for the same tracer, or for layers around it. -/
structure Agree (session : Session) (name : String) (session' : Session) (name' : String) :
    Prop where
  plain_eq : session.plain = session'.plain
  exists_tracer : ∃ base tracer buffers, session.HasTracer name base tracer buffers ∧
    session'.HasTracer name' base tracer buffers

namespace Agree

variable {session session' : Session} {name name' : String}

theorem load_eq (h : session.Agree name session' name') : session.load = session'.load := by
  funext tracer buffers
  rw [← load_plain, h.plain_eq, load_plain]

theorem stateOf_eq (h : session.Agree name session' name') (other : String) :
    session.stateOf other = session'.stateOf other := by
  rw [← stateOf_plain, h.plain_eq, stateOf_plain]

theorem contextOf_eq (h : session.Agree name session' name') (choice : ContextChoice) :
    session.contextOf choice = session'.contextOf choice := by
  rw [← contextOf_plain, h.plain_eq, contextOf_plain]

theorem status_eq (h : session.Agree name session' name') :
    ((session.find? name).bind session.stackAt?).map (·.unwrap.status) =
      ((session'.find? name').bind session'.stackAt?).map (·.unwrap.status) := by
  obtain ⟨base, tracer, buffers, htracer, htracer'⟩ := h.exists_tracer
  rw [htracer.status_eq, htracer'.status_eq, h.load_eq]

theorem performOn (h : session.Agree name session' name') {operation : Operation}
    (hforwarded : operation.isForwarded = true) :
    (session.performOn name operation).1 = (session'.performOn name' operation).1 ∧
      (session.performOn name operation).2.Agree name (session'.performOn name' operation).2
        name' := by
  obtain ⟨base, tracer, buffers, htracer, htracer'⟩ := h.exists_tracer
  obtain ⟨hresult, hplain⟩ := htracer.performOn hforwarded
  obtain ⟨hresult', hplain'⟩ := htracer'.performOn hforwarded
  rw [h.load_eq] at hresult hplain
  let outcome := (Stack.bare (session'.load tracer buffers)).perform operation
  refine ⟨hresult.trans hresult'.symm, ?_, base, outcome.stack.tracer, buffers, ?_, ?_⟩
  · rw [hplain, hplain', h.plain_eq]
  · rw [← hasTracer_plain_iff, hplain]
    exact (hasTracer_plain_iff.2 htracer).update_store _
  · rw [← hasTracer_plain_iff, hplain']
    exact (hasTracer_plain_iff.2 htracer').update_store _

theorem run (h : session.Agree name session' name') {call : Call}
    (hforwarded : call.isForwarded = true) :
    (session.run (call.on name)).1 = (session'.run (call.on name')).1 ∧
      (session.run (call.on name)).2.Agree name (session'.run (call.on name')).2 name' := by
  cases call with
  | perform operation => exact h.performOn hforwarded
  | scan context interval =>
    simp only [Call.on, Session.run, h.contextOf_eq context]
    exact h.performOn rfl
  | trace line context interval =>
    simp only [Call.on, Session.run, h.contextOf_eq context]
    exact h.performOn rfl
  | goToSame other =>
    simp only [Call.on, Session.run, h.stateOf_eq other]
    cases session'.stateOf other with
    | error fault => exact ⟨rfl, h⟩
    | ok state => exact h.performOn rfl
  | sameState other =>
    obtain ⟨base, tracer, buffers, htracer, htracer'⟩ := h.exists_tracer
    have hstate : session.stateOf name = session'.stateOf name' := by
      rw [htracer.stateOf_eq, htracer'.stateOf_eq, h.load_eq]
    simp only [Call.on, Session.run, h.stateOf_eq other, hstate]
    exact ⟨rfl, h⟩

theorem reply (h : session.Agree name session' name') {call : Call}
    (hforwarded : call.isForwarded = true) :
    (session.reply (call.on name)).1.plain = (session'.reply (call.on name')).1.plain ∧
      (session.reply (call.on name)).2.Agree name (session'.reply (call.on name')).2 name' := by
  obtain ⟨hresult, hagree⟩ := h.run hforwarded
  refine ⟨?_, hagree⟩
  have hstatus := hagree.status_eq
  simp only [Session.reply, Reply.plain, Call.name_on, hresult, Option.map_map]
  exact congrArg _ hstatus

theorem course (h : session.Agree name session' name') {calls : List Call}
    (hforwarded : ∀ call ∈ calls, call.isForwarded = true) :
    (session.course (calls.map (·.on name))).map (Prod.map Reply.plain Session.plain) =
      (session'.course (calls.map (·.on name'))).map (Prod.map Reply.plain Session.plain) := by
  induction calls generalizing session session' with
  | nil => rfl
  | cons call calls ih =>
    obtain ⟨hreply, hagree⟩ := h.reply (hforwarded call List.mem_cons_self)
    have hrest := ih hagree fun other hother ↦ hforwarded other (List.mem_cons_of_mem call hother)
    simp only [List.map_cons, Session.course, Prod.map, hrest, hreply, hagree.plain_eq]

end Agree

/-! ## Layers around a tracer -/

variable {session : Session} {outer engine : String}

/-- One name stands for layers, however many, around the tracer that the other name stands for. -/
def Wraps (session : Session) (outer engine : String) : Prop :=
  ∃ number base, session.find? outer = some number ∧ session.find? engine = some base ∧
    session.base? number = some base

theorem Wraps.agree (h : session.Wraps outer engine) : session.Agree outer session engine := by
  obtain ⟨number, base, houter, hengine, hbase⟩ := h
  obtain ⟨tracer, buffers, htracer⟩ := exists_tracer_of_base? hbase
  exact ⟨rfl, base, tracer, buffers, ⟨⟨number, houter, hbase⟩, htracer⟩,
    ⟨⟨base, hengine, base?_base hbase⟩, htracer⟩⟩

theorem map_descend_mono {session' : Session} {fuel number base : Nat}
    (h : ∀ number link, session.link? number = some link → session'.link? number = some link)
    (hbase : (session.descend fuel number).map (·.2) = some base) :
    (session'.descend fuel number).map (·.2) = some base := by
  induction fuel generalizing number with
  | zero => cases hbase
  | succ fuel ih =>
    rw [map_descend_succ] at hbase
    cases hlink : session.link? number with
    | none =>
      rw [hlink] at hbase
      cases hbase
    | some link =>
      rw [map_descend_succ, h number link hlink]
      rw [hlink] at hbase
      cases link with
      | none => exact hbase
      | some inner => exact ih hbase

/-- A new object leads on from no other one. -/
theorem link?_define {number : Nat} {link : Option Nat} (h : session.link? number = some link)
    (name : String) (object : SessionObject) :
    (session.define name object).link? number = some link := by
  obtain ⟨other, hother, -⟩ := Option.bind_eq_some_iff.1 h
  have hlt := (Array.getElem?_eq_some_iff.1 hother).1
  rw [link?, Session.define, Array.getElem?_push, if_neg (Nat.ne_of_lt hlt)]
  exact h

/-- Any layer may be put around layers around a tracer. -/
theorem Wraps.define {inner : String} {number : Nat} (h : session.Wraps inner engine)
    (hinner : session.find? inner = some number) (layer : Layer) (hname : outer ≠ engine) :
    (session.define outer (.layer layer number)).Wraps outer engine := by
  obtain ⟨other, base, hother, hengine, hbase⟩ := h
  obtain rfl : other = number := Option.some.inj (hother.symm.trans hinner)
  refine ⟨session.objects.size, base, ?_, ?_, ?_⟩
  · simp [find?, Session.define]
  · simpa [find?, Session.define, hname] using hengine
  · have hlink : (session.define outer (.layer layer other)).link? session.objects.size =
        some (some other) := by
      simp [link?, Session.define, SessionObject.link?]
    have hdescend := map_descend_mono
      (fun _ _ hold ↦ link?_define hold outer (.layer layer other)) hbase
    rw [base?, map_descend_succ, hlink]
    simpa [Session.define] using hdescend

/-- Whatever is called on the outermost layer, the results, faults and warnings, what can be
observed after each call, and the session after it, with the tracer and all buffers, are the same
as if the calls were made on the tracer itself. -/
theorem course_of_wraps (h : session.Wraps outer engine) {calls : List Call}
    (hforwarded : ∀ call ∈ calls, call.isForwarded = true) :
    (session.course (calls.map (·.on outer))).map (Prod.map Reply.plain Session.plain) =
      (session.course (calls.map (·.on engine))).map (Prod.map Reply.plain Session.plain) :=
  h.agree.course hforwarded

theorem course_of_wraps_pixel :
    let tracer := Tracer.new ⟨1, 1, #[true], rfl⟩ .null .diagonal (.fresh 1 .all)
    let session : Session := ⟨#[.tracer tracer .own, .layer (.new false) 0, .layer (.new true) 1],
      [("outer", 2), ("engine", 0)]⟩
    let calls : List Call := [.perform .nextBoundary, .scan .none .null, .goToSame "engine",
      .perform (.goTo (.int 1) (.int 0) .null), .trace .null .none .null, .perform .x]
    session.Wraps "outer" "engine" ∧ (∀ call ∈ calls, call.isForwarded = true) ∧
      (session.course (calls.map (·.on "outer"))).map (Prod.map Reply.plain Session.plain) =
        (session.course (calls.map (·.on "engine"))).map (Prod.map Reply.plain Session.plain) := by
  intro tracer session calls
  have hwraps : session.Wraps "outer" "engine" := ⟨2, 0, by decide, by decide, rfl⟩
  have hforwarded : ∀ call ∈ calls, call.isForwarded = true := by decide
  exact ⟨hwraps, hforwarded, course_of_wraps hwraps hforwarded⟩

end Session

end ContourTracing
