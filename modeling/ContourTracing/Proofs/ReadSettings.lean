import Mathlib.Tactic.Common
import ContourTracing.Settings

/-!
# Settings read from values

A setting that is one of several members may be the member itself or a text that is its word in any
letter case; the style of contour lines is told by its label, with blanks around it. Settings that
are written as words are read back as they were. A record gives settings or is refused for its first
bad value, whatever its values are, unless an integer in that value has too many digits to be
quoted. A document has to be a record, and so has its section; otherwise reading it fails, but not
for a bad argument.
-/

namespace ContourTracing

/-! ## Members by their words -/

/-- A list of all members, which their words tell apart. -/
structure IsWordList {α : Type} (members : List α) (word : α → String) : Prop where
  mem : ∀ member, member ∈ members
  eq_of_word_eq : ∀ a ∈ members, ∀ b ∈ members, word a = word b → a = b

theorem IsWordList.find?_eq_some_iff {α : Type} {members : List α} {word : α → String}
    (h : IsWordList members word) {text : String} {member : α} :
    members.find? (word · == text) = some member ↔ text = word member := by
  constructor
  · intro hfind
    have hword := List.find?_some hfind
    exact (beq_iff_eq.1 hword).symm
  · rintro rfl
    cases hfind : members.find? (word · == word member) with
    | none =>
      have hdiffers := List.find?_eq_none.1 hfind member (h.mem member)
      exact absurd (beq_self_eq_true (word member)) hdiffers
    | some found =>
      have hword := List.find?_some hfind
      rw [h.eq_of_word_eq found (h.mem found) member (h.mem member) (beq_iff_eq.1 hword)]

theorem Connectivity.isWordList : IsWordList all word where
  mem member := by cases member <;> decide
  eq_of_word_eq := by decide

theorem ScanMode.isWordList : IsWordList members word where
  mem member := by cases member <;> decide
  eq_of_word_eq := by decide

theorem OutsidePolicy.isWordList : IsWordList all word where
  mem member := by cases member <;> decide
  eq_of_word_eq := by decide

theorem ContourLine.isWordList : IsWordList all label where
  mem member := by cases member <;> decide
  eq_of_word_eq := by decide

theorem Connectivity.lower_word (connectivity : Connectivity) :
    String.ofList (Text.lower connectivity.word.toList) = connectivity.word := by
  cases connectivity <;> decide

theorem ScanMode.lower_word (mode : ScanMode) :
    String.ofList (Text.lower mode.word.toList) = mode.word := by
  cases mode <;> decide

theorem OutsidePolicy.lower_word (policy : OutsidePolicy) :
    String.ofList (Text.lower policy.word.toList) = policy.word := by
  cases policy <;> decide

theorem ContourLine.upper_word (line : ContourLine) :
    String.ofList (Text.upper (Text.strip line.word.toList)) = line.label := by
  cases line <;> decide

theorem Value.connectivity?_eq_some_iff {value : Value} {connectivity : Connectivity} :
    value.connectivity? = some connectivity ↔ value = .member (.connectivity connectivity) := by
  cases value with
  | member member => cases member <;> simp [connectivity?]
  | _ => simp [connectivity?]

theorem Value.mode?_eq_some_iff {value : Value} {mode : ScanMode} :
    value.mode? = some mode ↔ value = .member (.mode mode) := by
  cases value with
  | member member => cases member <;> simp [mode?]
  | _ => simp [mode?]

theorem Value.policy?_eq_some_iff {value : Value} {policy : OutsidePolicy} :
    value.policy? = some policy ↔ value = .member (.policy policy) := by
  cases value with
  | member member => cases member <;> simp [policy?]
  | _ => simp [policy?]

theorem Value.line?_eq_some_iff {value : Value} {line : ContourLine} :
    value.line? = some line ↔ value = .member (.line line) := by
  cases value with
  | member member => cases member <;> simp [line?]
  | _ => simp [line?]

namespace Settings

/-- The value is the member, or a text that is its word when it is put in lower case. -/
inductive Gives {α : Type} (toMember : α → Member) (word : α → String) (member : α) : Value → Prop
  | member : Gives toMember word member (.member (toMember member))
  | text {text : String} : String.ofList (Text.lower text.toList) = word member →
    Gives toMember word member (.text text)

/-- The value is the style, or a text that is its label in upper case when blanks are left out. -/
inductive GivesLine (line : ContourLine) : Value → Prop
  | member : GivesLine line (.member (.line line))
  | text {text : String} : String.ofList (Text.upper (Text.strip text.toList)) = line.label →
    GivesLine line (.text text)

section Choice

variable {α : Type} {name : String} {member? : Value → Option α} {members : List α}
  {word : α → String} {toMember : α → Member} {value : Value} {member : α}

theorem ofWord?_eq_some_iff (h : IsWordList members word) :
    ofWord? members word value = some member ↔
      ∃ text, value = .text text ∧ String.ofList (Text.lower text.toList) = word member := by
  cases value with
  | text text => simp [ofWord?, h.find?_eq_some_iff]
  | _ => simp [ofWord?]

theorem choice_eq_ok_iff (h : IsWordList members word)
    (hmember : ∀ value member, member? value = some member ↔ value = .member (toMember member)) :
    choice name member? members word value = .ok member ↔ Gives toMember word member value := by
  have hok : choice name member? members word value = .ok member ↔
      (member? value).or (ofWord? members word value) = some member := by
    rw [choice]
    split
    · next found hfound => simp [hfound]
    · next hnone => simp [hnone]
  rw [hok, Option.or_eq_some_iff, hmember, ofWord?_eq_some_iff h]
  constructor
  · rintro (rfl | ⟨-, text, rfl, htext⟩)
    · exact .member
    · exact .text htext
  · rintro (_ | htext)
    · exact .inl rfl
    · refine .inr ⟨?_, _, rfl, htext⟩
      apply Option.eq_none_iff_forall_ne_some.2
      intro found hfound
      cases (hmember _ found).1 hfound

end Choice

theorem lineOf_eq_ok_iff {value : Value} {line : ContourLine} :
    lineOf value = .ok line ↔ GivesLine line value := by
  constructor
  · intro h
    cases value with
    | text text =>
      simp only [lineOf, ContourLine.ofName] at h
      split at h
      · next found hfind =>
        cases h
        exact .text (ContourLine.isWordList.find?_eq_some_iff.1 hfind)
      · cases h
    | member member =>
      simp only [lineOf] at h
      split at h
      · next found hfound =>
        cases h
        rw [Value.line?_eq_some_iff.1 hfound]
        exact .member
      · cases h
    | _ => cases h
  · rintro (_ | htext)
    · rfl
    · have hfind := ContourLine.isWordList.find?_eq_some_iff.2 htext
      simp only [lineOf, ContourLine.ofName, hfind]

theorem interval_eq_ok_iff {value : Value} {interval : ℕ} :
    Interval.ofValue value = .ok interval ↔ value = .int interval ∧ 1 ≤ interval := by
  cases value with
  | int i =>
    simp only [Interval.ofValue, Value.int?]
    split
    · simp; omega
    · simp; omega
  | _ => simp [Interval.ofValue, Value.int?]

theorem connectivity_eq_ok_iff {value : Value} {connectivity : Connectivity} :
    choice "connectivity" Value.connectivity? Connectivity.all Connectivity.word value =
      .ok connectivity ↔ Gives .connectivity Connectivity.word connectivity value :=
  choice_eq_ok_iff Connectivity.isWordList fun _ _ ↦ Value.connectivity?_eq_some_iff

theorem mode_eq_ok_iff {value : Value} {mode : ScanMode} :
    choice "mode" Value.mode? ScanMode.members ScanMode.word value = .ok mode ↔
      Gives .mode ScanMode.word mode value :=
  choice_eq_ok_iff ScanMode.isWordList fun _ _ ↦ Value.mode?_eq_some_iff

theorem policy_eq_ok_iff {value : Value} {policy : OutsidePolicy} :
    choice "outside_policy" Value.policy? OutsidePolicy.all OutsidePolicy.word value =
      .ok policy ↔ Gives .policy OutsidePolicy.word policy value :=
  choice_eq_ok_iff OutsidePolicy.isWordList fun _ _ ↦ Value.policy?_eq_some_iff

/-! ## Records -/

theorem bind_eq_ok_iff {α β : Type} {result : Except Fault α} {next : α → Except Fault β} {b : β} :
    result >>= next = .ok b ↔ ∃ a, result = .ok a ∧ next a = .ok b := by
  cases result with
  | error fault => simp [bind, Except.bind]
  | ok a => simp [bind, Except.bind]

theorem mapError_eq_error_iff {α : Type} {result : Except Fault α} {change : Fault → Fault}
    {fault : Fault} :
    result.mapError change = .error fault ↔
      ∃ cause, result = .error cause ∧ change cause = fault := by
  cases result with
  | error cause => simp [Except.mapError]
  | ok a => simp [Except.mapError]

theorem mapError_eq_ok_iff {α : Type} {result : Except Fault α} {change : Fault → Fault} {a : α} :
    result.mapError change = .ok a ↔ result = .ok a := by
  cases result with
  | error fault => simp [Except.mapError]
  | ok a => simp [Except.mapError]

/-- The field of a record, or the member or number that it has by default. -/
def field (fields : List (String × Value)) (name : String) (default : Value) : Value :=
  (Value.lookup name fields).getD default

/-- The record gives these settings: each of them by a member or its word, or by its default if
there is no such field. Other fields are of no concern. -/
structure IsGivenBy (settings : Settings) (fields : List (String × Value)) : Prop where
  connectivity : Gives .connectivity Connectivity.word settings.connectivity
    (field fields "connectivity" (.member (.connectivity .diagonal)))
  mode : Gives .mode ScanMode.word settings.mode (field fields "mode" (.member (.mode .all)))
  policy : Gives .policy OutsidePolicy.word settings.policy
    (field fields "outside_policy" (.member (.policy .background)))
  line : GivesLine settings.line (field fields "contour_line_type" (.member (.line .corners)))
  interval : field fields "check_interval" (.int 1) = .int settings.interval
  interval_pos : 1 ≤ settings.interval

theorem ofFields_eq_ok_iff {fields : List (String × Value)} {settings : Settings} :
    ofFields fields = .ok settings ↔ settings.IsGivenBy fields := by
  simp only [ofFields, ofValues, readValues, mapError_eq_ok_iff, bind_eq_ok_iff,
    connectivity_eq_ok_iff, mode_eq_ok_iff, policy_eq_ok_iff, lineOf_eq_ok_iff, interval_eq_ok_iff]
  constructor
  · rintro ⟨_, hconnectivity, _, hmode, _, hpolicy, _, hline, _, ⟨hinterval, hpos⟩, heq⟩
    cases heq
    exact ⟨hconnectivity, hmode, hpolicy, hline, hinterval, hpos⟩
  · rintro ⟨hconnectivity, hmode, hpolicy, hline, hinterval, hpos⟩
    exact ⟨_, hconnectivity, _, hmode, _, hpolicy, _, hline, _, ⟨hinterval, hpos⟩, rfl⟩

/-- The words and the number that settings are written as give them again. -/
theorem isGivenBy_toFields (settings : Settings) (h : 1 ≤ settings.interval) :
    settings.IsGivenBy settings.toFields where
  connectivity := .text settings.connectivity.lower_word
  mode := .text settings.mode.lower_word
  policy := .text settings.policy.lower_word
  line := .text settings.line.upper_word
  interval := rfl
  interval_pos := h

/-! ## Bad values -/

/-- The values of the five fields in the order in which they are read, each with what it has to
give. -/
def demands (fields : List (String × Value)) : List (Value × Prop) :=
  let connectivity := field fields "connectivity" (.member (.connectivity .diagonal))
  let mode := field fields "mode" (.member (.mode .all))
  let policy := field fields "outside_policy" (.member (.policy .background))
  let line := field fields "contour_line_type" (.member (.line .corners))
  let interval := field fields "check_interval" (.int 1)
  [(connectivity, ∃ member, Gives .connectivity Connectivity.word member connectivity),
    (mode, ∃ member, Gives .mode ScanMode.word member mode),
    (policy, ∃ member, Gives .policy OutsidePolicy.word member policy),
    (line, ∃ style, GivesLine style line),
    (interval, ∃ count : ℕ, interval = .int count ∧ 1 ≤ count)]

/-- The first of the values that does not give what it has to. -/
inductive FirstBad (bad : Value) : List (Value × Prop) → Prop
  | head {gives : Prop} {rest : List (Value × Prop)} : ¬ gives → FirstBad bad ((bad, gives) :: rest)
  | tail {value : Value} {gives : Prop} {rest : List (Value × Prop)} :
    gives → FirstBad bad rest → FirstBad bad ((value, gives) :: rest)

theorem FirstBad.unique {bad bad' : Value} {values : List (Value × Prop)}
    (h : FirstBad bad values) (h' : FirstBad bad' values) : bad' = bad := by
  induction h with
  | head hnot =>
    cases h' with
    | head => rfl
    | tail hgives => exact absurd hgives hnot
  | tail hgives _ ih =>
    cases h' with
    | head hnot => exact absurd hgives hnot
    | tail _ hrest => exact ih hrest

theorem FirstBad.exists_mem {bad : Value} {values : List (Value × Prop)}
    (h : FirstBad bad values) : ∃ gives, (bad, gives) ∈ values ∧ ¬ gives := by
  induction h with
  | head hnot => exact ⟨_, List.mem_cons_self, hnot⟩
  | tail _ _ ih =>
    obtain ⟨gives, hmem, hnot⟩ := ih
    exact ⟨gives, List.mem_cons_of_mem _ hmem, hnot⟩

/-- The value is read as something that it gives. If it gives nothing, it is refused, and the
message quotes it. -/
def Reads {α : Type} (value : Value) (gives : α → Prop) (result : Except Fault α) : Prop :=
  (∃ a, result = .ok a ∧ gives a) ∨
    (¬ ∃ a, gives a) ∧
      ∃ cause, result = .error (.argument cause) ∧ cause.isWritable = value.isWritable

theorem Reads.of_iff {α : Type} {value : Value} {gives : α → Prop} {result : Except Fault α}
    (hok : ∀ a, result = .ok a ↔ gives a)
    (herror : ∀ fault, result = .error fault →
      ∃ cause, fault = .argument cause ∧ cause.isWritable = value.isWritable) :
    Reads value gives result := by
  cases result with
  | ok a => exact .inl ⟨a, rfl, (hok a).1 rfl⟩
  | error fault =>
    obtain ⟨cause, rfl, hwritable⟩ := herror fault rfl
    have hnot : ¬ ∃ a, gives a := by
      rintro ⟨a, hgives⟩
      cases (hok a).2 hgives
    exact .inr ⟨hnot, cause, rfl, hwritable⟩

theorem choice_reads {α : Type} {members : List α} {word : α → String} {toMember : α → Member}
    (h : IsWordList members word) (name : String) {member? : Value → Option α}
    (hmember : ∀ value member, member? value = some member ↔ value = .member (toMember member))
    (value : Value) :
    Reads value (Gives toMember word · value) (choice name member? members word value) := by
  refine .of_iff (fun member ↦ choice_eq_ok_iff h hmember) fun fault hfault ↦ ?_
  rw [choice] at hfault
  split at hfault
  · cases hfault
  · cases hfault
    exact ⟨.setting name value, rfl, rfl⟩

theorem lineOf_reads (value : Value) : Reads value (GivesLine · value) (lineOf value) := by
  refine .of_iff (fun line ↦ lineOf_eq_ok_iff) fun fault hfault ↦ ?_
  cases value with
  | text name =>
    simp only [lineOf, ContourLine.ofName] at hfault
    split at hfault
    · cases hfault
    · cases hfault
      exact ⟨.lineUnknown (.text name), rfl, rfl⟩
  | member member =>
    simp only [lineOf] at hfault
    split at hfault
    · cases hfault
    · cases hfault
      exact ⟨.lineKind (.member member), rfl, rfl⟩
  | _ =>
    cases hfault
    exact ⟨_, rfl, rfl⟩

theorem interval_reads (value : Value) :
    Reads value (fun count : ℕ ↦ value = .int count ∧ 1 ≤ count) (Interval.ofValue value) := by
  refine .of_iff (fun count ↦ interval_eq_ok_iff) fun fault hfault ↦ ?_
  cases value with
  | int interval =>
    simp only [Interval.ofValue, Value.int?] at hfault
    split at hfault
    · cases hfault
      exact ⟨.intervalRange interval, rfl, rfl⟩
    · cases hfault
  | _ =>
    cases hfault
    exact ⟨_, rfl, rfl⟩

/-- A failure is the refusal of the first bad value, and its message quotes that value. -/
def FailsFor {α : Type} (values : List (Value × Prop)) (result : Except Fault α) : Prop :=
  ∀ fault, result = .error fault → ∃ bad cause, FirstBad bad values ∧
    fault = .argument cause ∧ cause.isWritable = bad.isWritable

theorem Reads.bind {α β : Type} {value : Value} {gives : α → Prop} {result : Except Fault α}
    {rest : List (Value × Prop)} {next : α → Except Fault β} (h : Reads value gives result)
    (hnext : ∀ a, FailsFor rest (next a)) :
    FailsFor ((value, ∃ a, gives a) :: rest) (result >>= next) := by
  rcases h with ⟨a, rfl, hgives⟩ | ⟨hnot, cause, rfl, hwritable⟩
  · intro fault hfault
    obtain ⟨bad, cause, hbad, heq, hwritable⟩ := hnext a fault hfault
    exact ⟨bad, cause, .tail ⟨a, hgives⟩ hbad, heq, hwritable⟩
  · rintro _ ⟨⟩
    exact ⟨value, cause, .head hnot, rfl, hwritable⟩

theorem readValues_failsFor (fields : List (String × Value)) :
    FailsFor (demands fields)
      (readValues (field fields "connectivity" (.member (.connectivity .diagonal)))
        (field fields "mode" (.member (.mode .all)))
        (field fields "outside_policy" (.member (.policy .background)))
        (field fields "contour_line_type" (.member (.line .corners)))
        (field fields "check_interval" (.int 1))) :=
  (choice_reads Connectivity.isWordList _ (fun _ _ ↦ Value.connectivity?_eq_some_iff) _).bind
    fun _ ↦ (choice_reads ScanMode.isWordList _ (fun _ _ ↦ Value.mode?_eq_some_iff) _).bind
      fun _ ↦ (choice_reads OutsidePolicy.isWordList _ (fun _ _ ↦ Value.policy?_eq_some_iff) _).bind
        fun _ ↦ (lineOf_reads _).bind fun _ ↦ (interval_reads _).bind fun _ ↦ nofun

/-! ## Results -/

/-- Settings whose members are among those of their enumerations, with a positive interval. -/
structure IsValid (settings : Settings) : Prop where
  connectivity : settings.connectivity ∈ Connectivity.all
  mode : settings.mode ∈ ScanMode.members
  policy : settings.policy ∈ OutsidePolicy.all
  line : settings.line ∈ ContourLine.all
  interval : 1 ≤ settings.interval

theorem IsGivenBy.isValid {fields : List (String × Value)} {settings : Settings}
    (h : settings.IsGivenBy fields) : settings.IsValid where
  connectivity := Connectivity.isWordList.mem settings.connectivity
  mode := ScanMode.isWordList.mem settings.mode
  policy := OutsidePolicy.isWordList.mem settings.policy
  line := ContourLine.isWordList.mem settings.line
  interval := h.interval_pos

theorem IsGivenBy.not_firstBad {fields : List (String × Value)} {settings : Settings}
    (h : settings.IsGivenBy fields) (bad : Value) : ¬ FirstBad bad (demands fields) := by
  intro hbad
  obtain ⟨gives, hmem, hnot⟩ := hbad.exists_mem
  apply hnot
  simp only [demands, List.mem_cons, List.not_mem_nil, or_false, Prod.mk.injEq] at hmem
  rcases hmem with ⟨-, rfl⟩ | ⟨-, rfl⟩ | ⟨-, rfl⟩ | ⟨-, rfl⟩ | ⟨-, rfl⟩
  · exact ⟨_, h.connectivity⟩
  · exact ⟨_, h.mode⟩
  · exact ⟨_, h.policy⟩
  · exact ⟨_, h.line⟩
  · exact ⟨_, h.interval, h.interval_pos⟩

/-- The result has the property, or else a bad argument is refused. -/
def HoldsOrRefused {α : Type} (P : α → Prop) (result : Except Fault α) : Prop :=
  (∃ a, result = .ok a ∧ P a) ∨ ∃ cause, result = .error (.argument cause)

theorem not_holdsOrRefused_misuse {α : Type} (P : α → Prop) (cause : Misuse) :
    ¬ HoldsOrRefused P (.error (.misuse cause)) := by
  rintro (⟨a, ha, -⟩ | ⟨argument, hargument⟩)
  · cases ha
  · cases hargument

/-- The first bad value of a record is refused, unless it cannot be quoted. -/
theorem ofFields_cases (fields : List (String × Value)) :
    (HoldsOrRefused IsValid (ofFields fields) ∧
        ∀ bad, FirstBad bad (demands fields) → bad.isWritable = true) ∨
      (ofFields fields = .error (.misuse .tooManyDigits) ∧
        ∃ bad, FirstBad bad (demands fields) ∧ bad.isWritable = false) := by
  cases hfields : ofFields fields with
  | ok settings =>
    have hgiven := ofFields_eq_ok_iff.1 hfields
    exact .inl ⟨.inl ⟨settings, rfl, hgiven.isValid⟩,
      fun bad hbad ↦ absurd hbad (hgiven.not_firstBad bad)⟩
  | error fault =>
    obtain ⟨found, hfound, hfault⟩ := mapError_eq_error_iff.1 hfields
    obtain ⟨bad, cause, hbad, rfl, hwritable⟩ := readValues_failsFor fields found hfound
    rw [← hfault, Fault.announced, hwritable]
    cases hquoted : bad.isWritable with
    | true => exact .inl ⟨.inr ⟨cause, rfl⟩, fun other hother ↦ hbad.unique hother ▸ hquoted⟩
    | false => exact .inr ⟨rfl, bad, hbad, hquoted⟩

/-- Settings are read from a record exactly if it gives them; written as words they are read back
as they were and written in the same way. Any other record is refused for its first bad value. Only
where an integer in this value has too many digits to be quoted does it fail in another way. -/
theorem ofValue_roundTrip (fields : List (String × Value)) :
    (∀ settings, ofValue (.record fields) = .ok settings ↔ settings.IsGivenBy fields) ∧
      (∀ settings, settings.IsGivenBy fields →
        ofValue settings.toValue = .ok settings ∧
          (ofValue settings.toValue).map toValue = .ok settings.toValue) ∧
      (HoldsOrRefused IsValid (ofValue (.record fields)) ↔
        ∀ bad, FirstBad bad (demands fields) → bad.isWritable = true) ∧
      (ofValue (.record fields) = .error (.misuse .tooManyDigits) ↔
        ∃ bad, FirstBad bad (demands fields) ∧ bad.isWritable = false) := by
  refine ⟨fun settings ↦ ofFields_eq_ok_iff, fun settings h ↦ ?_, ?_⟩
  · have hread : ofValue settings.toValue = .ok settings :=
      ofFields_eq_ok_iff.2 (isGivenBy_toFields settings h.interval_pos)
    rw [hread]
    exact ⟨rfl, rfl⟩
  · change (HoldsOrRefused IsValid (ofFields fields) ↔ _) ∧ (ofFields fields = _ ↔ _)
    rcases ofFields_cases fields with ⟨hresult, hquoted⟩ | ⟨hresult, bad, hbad, hlong⟩
    · refine ⟨iff_of_true hresult hquoted, iff_of_false (fun hmisuse ↦ ?_) ?_⟩
      · rw [hmisuse] at hresult
        exact not_holdsOrRefused_misuse IsValid _ hresult
      · rintro ⟨bad, hbad, hlong⟩
        rw [hquoted bad hbad] at hlong
        cases hlong
    · rw [hresult]
      refine ⟨iff_of_false (not_holdsOrRefused_misuse IsValid _) fun hquoted ↦ ?_,
        iff_of_true rfl ⟨bad, hbad, hlong⟩⟩
      rw [hquoted bad hbad] at hlong
      cases hlong

/-- A word in mixed case, a label with blanks, an interval beyond all masks and another field. -/
theorem ofValue_roundTrip_mixedCase :
    let fields : List (String × Value) :=
      [("colour", .null), ("mode", .text "mAiN"), ("outside_policy", .member (.policy .strict)),
        ("contour_line_type", .text " Pixel_Centers_Polyline\n"),
        ("check_interval", .int 1000000000000000000000000)]
    let settings : Settings := ⟨.diagonal, .main, .strict, .centers, 1000000000000000000000000⟩
    settings.IsGivenBy fields ∧ ofValue (.record fields) = .ok settings ∧
      ofValue settings.toValue = .ok settings := by
  intro fields settings
  have hgiven : settings.IsGivenBy fields :=
    ⟨.member, .text (by decide), .member, .text (by decide), rfl, by decide⟩
  obtain ⟨hread, hround, -⟩ := ofValue_roundTrip fields
  exact ⟨hgiven, (hread settings).2 hgiven, (hround settings hgiven).1⟩

theorem ofValue_of_tooManyDigits {n : ℕ} (h : Nat.pow 10 Value.digitLimit ≤ n) :
    ofValue (.record [("check_interval", .int (-n))]) = .error (.misuse .tooManyDigits) := by
  have hlong : (Value.int (-n)).isWritable = false := by
    rw [Value.isWritable, Int.natAbs_neg, Int.natAbs_natCast]
    exact decide_eq_false (Nat.not_lt.2 h)
  have hrefused : Interval.ofValue (.int (-n)) = .error (.argument (.intervalRange (-n))) :=
    if_pos (by omega)
  have hread (interval : Value) : ofValue (.record [("check_interval", interval)]) =
      ((Interval.ofValue interval).bind fun count ↦
        .ok { standard with interval := count }).mapError Fault.announced := rfl
  rw [hread, hrefused, Except.bind, Except.mapError, Fault.announced, ArgumentFault.isWritable,
    hlong]
  rfl

/-- An interval that is too small, and has too many digits for its refusal. -/
theorem not_holdsOrRefused_tooManyDigits :
    ¬ HoldsOrRefused IsValid
      (ofValue (.record [("check_interval", .int (-Nat.pow 10 Value.digitLimit))])) := by
  rw [ofValue_of_tooManyDigits (Nat.le_refl _)]
  exact not_holdsOrRefused_misuse IsValid _

/-! ## Documents -/

/-- The settings of a document are among these fields: none if it is empty, those of its section if
it has one, or else all that it has. -/
inductive HasFields : Value → List (String × Value) → Prop
  | empty {value : Value} : value.isEmpty = true → HasFields value []
  | whole {fields : List (String × Value)} :
    Value.lookup "scanner" fields = none → HasFields (.record fields) fields
  | inner {fields innerFields : List (String × Value)} :
    Value.lookup "scanner" fields = some (.record innerFields) →
      HasFields (.record fields) innerFields

section Reading

variable {Document : Type} {read : Document → Value} {document : Document}

/-- The fields of a document are read like any others. -/
theorem ofDocument_of_hasFields {fields : List (String × Value)}
    (h : HasFields (read document) fields) : ofDocument read document = ofFields fields := by
  simp only [ofDocument]
  generalize read document = value at h ⊢
  cases h with
  | empty hempty => rw [if_pos hempty]
  | whole hlookup =>
    split
    · next hempty => rw [List.isEmpty_iff.1 hempty]
    · simp only [hlookup, Option.getD_none, ofValue]
  | inner hlookup =>
    split
    · next hempty =>
      rw [List.isEmpty_iff.1 hempty] at hlookup
      cases hlookup
    · simp only [hlookup, Option.getD_some, ofValue]

theorem ofDocument_of_not_hasFields (h : ∀ fields, ¬ HasFields (read document) fields) :
    ofDocument read document = .error (.misuse .settingsKind) := by
  simp only [ofDocument]
  generalize read document = value at h ⊢
  split
  · next hempty => exact absurd (.empty hempty) (h [])
  · cases value with
    | record fields =>
      cases hlookup : Value.lookup "scanner" fields with
      | none => exact absurd (.whole hlookup) (h fields)
      | some inner =>
        cases inner with
        | record innerFields => exact absurd (.inner hlookup) (h innerFields)
        | _ => simp only [hlookup, Option.getD_some, ofValue]
    | _ => rfl

end Reading

/-- However documents are read, one that has fields for the settings gives valid settings or is
refused for its first bad value, if that can be quoted. Reading any other document fails in another
way. -/
theorem ofDocument_cases {Document : Type} (read : Document → Value) (document : Document) :
    (∃ fields, HasFields (read document) fields ∧
        HoldsOrRefused IsValid (ofDocument read document) ∧
          ∀ bad, FirstBad bad (demands fields) → bad.isWritable = true) ∨
      (∃ fields, HasFields (read document) fields ∧
        ofDocument read document = .error (.misuse .tooManyDigits) ∧
          ∃ bad, FirstBad bad (demands fields) ∧ bad.isWritable = false) ∨
      ((∀ fields, ¬ HasFields (read document) fields) ∧
        ofDocument read document = .error (.misuse .settingsKind)) := by
  by_cases h : ∃ fields, HasFields (read document) fields
  · obtain ⟨fields, hfields⟩ := h
    rw [ofDocument_of_hasFields hfields]
    rcases ofFields_cases fields with hresult | hresult
    · exact .inl ⟨fields, hfields, hresult⟩
    · exact .inr (.inl ⟨fields, hfields, hresult⟩)
  · have hnone := not_exists.1 h
    exact .inr (.inr ⟨hnone, ofDocument_of_not_hasFields hnone⟩)

/-- An empty section, though an empty document has the default settings. -/
theorem not_holdsOrRefused_emptySection :
    ¬ HoldsOrRefused IsValid (ofDocument id (.record [("scanner", .null)])) := by
  have hread : ofDocument id (.record [("scanner", .null)]) =
      .error (.misuse .settingsKind) := rfl
  rw [hread]
  exact not_holdsOrRefused_misuse IsValid _

end Settings

end ContourTracing
