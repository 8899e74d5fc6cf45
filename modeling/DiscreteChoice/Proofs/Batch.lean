import DiscreteChoice.Batch
import DiscreteChoice.Proofs.Choice.Modes

/-!
# Batches and single decisions

The report on a population is what comes of its members one by one. Chunks are only a unit of work:
however the population is cut, and in whatever order workers take the chunks, every member is
decided by itself and reported once, in the order of the population.

Main results:

- Theorem `value_run_eq`: the members of the chunks that are started are decided, the others are
  counted.
- Theorem `processed_add_skipped`: nobody is lost, whenever the work is cancelled.
- Theorem `gather_workAll`: workers that take the chunks in any order make the same report.
- Theorem `run_eq_alone`: the report on a population is that of its members alone.
-/

namespace DiscreteChoice

variable {α : Type}

/-! ## Reports -/

namespace Report

@[simp] theorem empty_append (report : Report α) : empty.append report = report := by
  simp [append, empty]

@[simp] theorem append_empty (report : Report α) : report.append empty = report := by
  simp [append, empty]

theorem append_assoc (first second third : Report α) :
    (first.append second).append third = first.append (second.append third) := by
  simp [append, Nat.add_assoc]

/-- The reports of two lists of results one behind the other. -/
theorem ofResults_append (results others : List (Except Failure (Outcome α))) :
    ofResults (results ++ others) = (ofResults results).append (ofResults others) := by
  simp [ofResults, append]

/-- Reports behind a first one are put behind it together. -/
theorem foldl_append (first : Report α) (reports : List (Report α)) :
    reports.foldl append first = first.append (reports.foldl append empty) := by
  induction reports generalizing first with
  | nil => simp
  | cons report reports ih =>
    rw [List.foldl_cons, List.foldl_cons, ih, ih (empty.append report), empty_append, append_assoc]

/-- The report of a first result and the report of the others. -/
theorem ofResults_cons (result : Except Failure (Outcome α))
    (results : List (Except Failure (Outcome α))) :
    ofResults (result :: results) = (empty.add result).append (ofResults results) := by
  cases result <;> simp [ofResults, add, append, empty, Except.toOption, List.filterMap_cons]

/-- Adding a result puts its report behind the others. -/
theorem add_eq_append (report : Report α) (result : Except Failure (Outcome α)) :
    report.add result = report.append (empty.add result) := by
  cases result <;> simp [add, append, empty]

/-- Adding results one by one puts their report behind the others. -/
theorem foldl_add (report : Report α) (results : List (Except Failure (Outcome α))) :
    results.foldl add report = report.append (ofResults results) := by
  induction results generalizing report with
  | nil => exact (append_empty report).symm
  | cons result results ih =>
    rw [List.foldl_cons, ih, add_eq_append, append_assoc, ← ofResults_cons]

/-- Every result is reported once. -/
theorem processed_ofResults (results : List (Except Failure (Outcome α))) :
    (ofResults results).processed = results.length := by
  induction results with
  | nil => rfl
  | cons result results ih =>
    rw [processed] at ih
    rw [ofResults_cons, List.length_cons, ← ih]
    cases result <;> simp [processed, append, add, empty] <;> omega

end Report

/-! ## One by one -/

namespace Batch

variable [Numeric α] [NumberText α]

/-- What comes of a decision maker alone, bound to the model and decided by itself. -/
def alone (chooser : Chooser α) (data : ModelData α) (mode : OutputMode)
    (person : DecisionMaker α) : Except Failure (Outcome α) :=
  match (chooser.run (chooser.model.bind person data) mode).value with
  | .ok outcome => .ok outcome
  | .error e => .error ⟨person.id, chooser.model.name, e.message⟩

/-- The members of chunks are decided alone. -/
theorem value_decide (chooser : Chooser α) (data : ModelData α) (mode : OutputMode)
    (person : DecisionMaker α) :
    (decide chooser data mode person).value = alone chooser data mode person := by
  rw [decide, Logged.value_bind, alone]
  cases (chooser.run (chooser.model.bind person data) mode).value <;> rfl

/-- The report of numbered chunks, one after the other: the members of those that are started are
decided, and the others are counted. -/
theorem foldl_decideChunk (chooser : Chooser α) (data : ModelData α) (mode : OutputMode)
    (cancelled : Nat → Bool) (groups : List (List (DecisionMaker α) × Nat)) :
    (groups.map fun entry =>
        (decideChunk chooser data mode (cancelled entry.2) entry.1).value).foldl
      Report.append .empty =
    { Report.ofResults (((groups.filter fun entry => !cancelled entry.2).flatMap (·.1)).map
        (alone chooser data mode)) with
      skipped := ((groups.filter fun entry => cancelled entry.2).flatMap (·.1)).length } := by
  induction groups with
  | nil => rfl
  | cons entry groups ih =>
    rw [List.map_cons, List.foldl_cons, Report.empty_append, Report.foldl_append, ih]
    cases h : cancelled entry.2 with
    | true => simp [decideChunk, h, Report.append, Report.empty, Report.ofResults]
    | false =>
      simp [decideChunk, h, value_decide, Report.append, Report.ofResults]

/-- The members of the chunks that are started are decided, and the others are counted. -/
theorem value_run_eq (chooser : Chooser α) (data : ModelData α) (options : BatchOptions)
    (cancelled : Nat → Bool) (people : List (DecisionMaker α)) :
    (run chooser data options cancelled people).value =
      { Report.ofResults ((((chunks options.batchSize people).zipIdx.filter fun entry =>
          !cancelled entry.2).flatMap (·.1)).map (alone chooser data options.mode)) with
        skipped := (((chunks options.batchSize people).zipIdx.filter fun entry =>
          cancelled entry.2).flatMap (·.1)).length } := by
  rw [run, Logged.value_bind, Logged.value_forAll, Logged.value_pure, foldl_decideChunk]

/-- The chunks of a population, with their numbers, make it up. -/
theorem flatMap_zipIdx_chunks {β : Type} (size : Nat) (xs : List β) :
    (chunks size xs).zipIdx.flatMap (·.1) = xs := by
  rw [List.flatMap_def, List.zipIdx_map_fst, flatten_chunks]

/-- Every member of a population is reported, or was in a chunk that was not started. -/
theorem processed_add_skipped (chooser : Chooser α) (data : ModelData α) (options : BatchOptions)
    (cancelled : Nat → Bool) (people : List (DecisionMaker α)) :
    (run chooser data options cancelled people).value.processed +
      (run chooser data options cancelled people).value.skipped = people.length := by
  have hchunks := ((List.filter_append_perm (fun entry => cancelled entry.2)
    (chunks options.batchSize people).zipIdx).flatMap_right (·.1)).length_eq
  have hprocessed := Report.processed_ofResults
    ((((chunks options.batchSize people).zipIdx.filter fun entry =>
      !cancelled entry.2).flatMap (·.1)).map (alone chooser data options.mode))
  rw [flatMap_zipIdx_chunks, List.flatMap_append, List.length_append] at hchunks
  rw [List.length_map, Report.processed] at hprocessed
  rw [value_run_eq, Report.processed, hprocessed, Nat.add_comm, hchunks]

/-- A population whose work is not cancelled is decided one by one. -/
theorem value_run_of_running (chooser : Chooser α) (data : ModelData α) (options : BatchOptions)
    (people : List (DecisionMaker α)) :
    (run chooser data options (fun _ => false) people).value =
      .ofResults (people.map (alone chooser data options.mode)) := by
  simp [value_run_eq, flatMap_zipIdx_chunks, Report.ofResults]

/-- Of a population whose work is cancelled before the start nobody is decided. -/
theorem value_run_of_cancelled (chooser : Chooser α) (data : ModelData α) (options : BatchOptions)
    (people : List (DecisionMaker α)) :
    (run chooser data options (fun _ => true) people).value = ⟨[], [], people.length⟩ := by
  simp [value_run_eq, flatMap_zipIdx_chunks, Report.ofResults]

/-! ## Workers -/

/-- What is kept of every chunk: its results, or nothing when it is not started. -/
abbrev Slots (α : Type) := Array (Option (List (Except Failure (Outcome α))))

section Workers

variable (chooser : Chooser α) (data : ModelData α) (mode : OutputMode) (cancelled : Nat → Bool)
  (groups : List (List (DecisionMaker α)))

/-- What is kept of a chunk, nothing when the work has been cancelled. -/
def kept (number : Nat) (chunk : List (DecisionMaker α)) :
    Option (List (Except Failure (Outcome α))) :=
  if cancelled number then none
  else some (chunk.map fun person => (decide chooser data mode person).value)

/-- A worker takes the chunk of a number. -/
def work (slots : Slots α) (number : Nat) : Slots α :=
  slots.setIfInBounds number
    (groups[number]?.bind (kept chooser data mode cancelled number))

/-- Workers take chunks in an order. -/
def workAll (order : List Nat) : Slots α :=
  order.foldl (work chooser data mode cancelled groups) (Array.replicate groups.length none)

/-- Puts together what is kept of the chunks. The chunks that nothing is kept of are counted. -/
def gather (slots : Slots α) : Report α :=
  (groups.zip slots.toList).foldl
    (fun report entry =>
      match entry.2 with
      | none => { report with skipped := report.skipped + entry.1.length }
      | some results => results.foldl Report.add report)
    .empty

/-- A place is kept for every chunk. -/
theorem size_workAll (order : List Nat) :
    (workAll chooser data mode cancelled groups order).size = groups.length := by
  induction order using List.reverseRecOn with
  | nil => exact Array.size_replicate
  | append_singleton order taken ih =>
    rw [workAll] at ih
    rw [workAll, List.foldl_append, List.foldl_cons, List.foldl_nil, work,
      Array.size_setIfInBounds, ih]

/-- What workers keep of a chunk depends on whether it was taken. -/
theorem getElem?_workAll (order : List Nat) (number : Nat) :
    (workAll chooser data mode cancelled groups order)[number]? =
      groups[number]?.map fun chunk =>
        if number ∈ order then kept chooser data mode cancelled number chunk else none := by
  induction order using List.reverseRecOn with
  | nil =>
    rw [workAll, List.foldl_nil, Array.getElem?_replicate]
    by_cases h : number < groups.length
    · simp [h]
    · simp [h]
  | append_singleton order taken ih =>
    have hsize := size_workAll chooser data mode cancelled groups order
    rw [workAll] at ih hsize
    rw [workAll, List.foldl_append, List.foldl_cons, List.foldl_nil, work,
      Array.getElem?_setIfInBounds, ih, hsize]
    by_cases htaken : taken = number
    · subst htaken
      by_cases h : taken < groups.length
      · simp [h]
      · simp [h]
    · have hmem : number ∈ order ++ [taken] ↔ number ∈ order := by simp [Ne.symm htaken]
      simp only [htaken, if_false, hmem]

/-- When every chunk has been taken, the results of all that were started are kept. -/
theorem toList_workAll {order : List Nat} (horder : order.Perm (List.range groups.length)) :
    (workAll chooser data mode cancelled groups order).toList =
      groups.zipIdx.map fun entry => kept chooser data mode cancelled entry.2 entry.1 := by
  refine List.ext_getElem? fun number => ?_
  rw [Array.getElem?_toList, getElem?_workAll, List.getElem?_map, List.getElem?_zipIdx]
  by_cases h : number < groups.length
  · have hmem : number ∈ order := by
      rw [horder.mem_iff, List.mem_range]
      exact h
    simp [h, hmem]
  · simp [h]

/-- Workers that take every chunk once, in any order, make the report of the chunks one after the
other. -/
theorem gather_workAll {order : List Nat} (horder : order.Perm (List.range groups.length)) :
    gather groups (workAll chooser data mode cancelled groups order) =
      (groups.zipIdx.map fun entry =>
        (decideChunk chooser data mode (cancelled entry.2) entry.1).value).foldl
          Report.append .empty := by
  have hzip : (groups.zipIdx.map (·.1)).zip (groups.zipIdx.map fun entry =>
      kept chooser data mode cancelled entry.2 entry.1) =
      groups.zipIdx.map fun entry =>
        (entry.1, kept chooser data mode cancelled entry.2 entry.1) := List.zip_map'
  rw [List.zipIdx_map_fst] at hzip
  rw [gather, toList_workAll _ _ _ _ _ horder, hzip, List.foldl_map, List.foldl_map]
  congr
  funext report entry
  cases h : cancelled entry.2 with
  | true => simp [kept, decideChunk, h, Report.append, Report.empty]
  | false => simp [kept, decideChunk, h, Report.foldl_add]

end Workers

/-! ## The report on a population -/

/-- What comes of a decision maker alone is about this decision maker. -/
theorem id_alone (chooser : Chooser α) (data : ModelData α) (mode : OutputMode)
    (person : DecisionMaker α) :
    (∀ outcome, alone chooser data mode person = .ok outcome → outcome.id = person.id) ∧
      ∀ failure, alone chooser data mode person = .error failure → failure.id = person.id := by
  rw [alone]
  cases h : (chooser.run (chooser.model.bind person data) mode).value with
  | ok outcome =>
    refine ⟨fun found hfound => ?_, by simp⟩
    rcases Except.ok.inj hfound with rfl
    exact Chooser.id_run h
  | error e =>
    refine ⟨by simp, fun failure hfailure => ?_⟩
    rcases Except.error.inj hfailure with rfl
    rfl

/-- Every member of a population has one outcome or one failure. -/
theorem perm_ids (chooser : Chooser α) (data : ModelData α) (mode : OutputMode)
    (people : List (DecisionMaker α)) :
    ((Report.ofResults (people.map (alone chooser data mode))).outcomes.map (·.id) ++
      (Report.ofResults (people.map (alone chooser data mode))).failures.map (·.id)).Perm
        (people.map (·.id)) := by
  induction people with
  | nil => exact .nil
  | cons person people ih =>
    rcases id_alone chooser data mode person with ⟨hok, herror⟩
    rw [List.map_cons, List.map_cons, Report.ofResults_cons]
    cases h : alone chooser data mode person with
    | ok outcome => simpa [Report.append, Report.add, Report.empty, hok outcome h] using ih
    | error failure =>
      simpa [Report.append, Report.add, Report.empty, herror failure h] using
        List.perm_middle.trans (ih.cons person.id)

/-- The report on a population is that of its members alone. When the work is not cancelled, its
outcomes and its failures are those of binding and deciding each member by itself, both in the order
of the population, every member is in one of the two once, and nobody is skipped; when it is
cancelled before the start, everybody is. The report is the same for every size of the chunks,
however many of them are worked on at the same time and in whatever order they are taken, and that
on two populations one behind the other is made of the two reports. -/
theorem run_eq_alone (chooser : Chooser α) (data : ModelData α) (options : BatchOptions)
    (people : List (DecisionMaker α)) :
    (run chooser data options (fun _ => false) people).value =
      { outcomes := people.filterMap fun person =>
          match (chooser.run (chooser.model.bind person data) options.mode).value with
          | .ok outcome => some outcome
          | .error _ => none
        failures := people.filterMap fun person =>
          match (chooser.run (chooser.model.bind person data) options.mode).value with
          | .ok _ => none
          | .error e => some ⟨person.id, chooser.model.name, e.message⟩
        skipped := 0 } ∧
    ((run chooser data options (fun _ => false) people).value.outcomes.map (·.id) ++
      (run chooser data options (fun _ => false) people).value.failures.map (·.id)).Perm
        (people.map (·.id)) ∧
    (run chooser data options (fun _ => true) people).value = ⟨[], [], people.length⟩ ∧
    (∀ cancelled order,
      order.Perm (List.range (chunks options.batchSize people).length) →
        gather (chunks options.batchSize people)
          (workAll chooser data options.mode cancelled (chunks options.batchSize people) order) =
            (run chooser data options cancelled people).value) ∧
    ∀ flag : Bool,
      (∀ size parallelism showProgress,
        (run chooser data ⟨options.mode, size, parallelism, showProgress⟩ (fun _ => flag)
          people).value = (run chooser data options (fun _ => flag) people).value) ∧
      ∀ others,
        (run chooser data options (fun _ => flag) (people ++ others)).value =
          (run chooser data options (fun _ => flag) people).value.append
            (run chooser data options (fun _ => flag) others).value := by
  refine ⟨?_, ?_, value_run_of_cancelled chooser data options people, ?_, ?_⟩
  · rw [value_run_of_running, Report.ofResults, List.filterMap_map, List.filterMap_map]
    congr 2 <;> funext person <;> rw [Function.comp_apply, alone] <;>
      cases (chooser.run (chooser.model.bind person data) options.mode).value <;> rfl
  · rw [value_run_of_running]
    exact perm_ids chooser data options.mode people
  · intro cancelled order horder
    rw [gather_workAll _ _ _ _ _ horder, run, Logged.value_bind, Logged.value_forAll,
      Logged.value_pure]
  · rintro (_ | _)
    · simp only [value_run_of_running, List.map_append, Report.ofResults_append, implies_true,
        and_self]
    · simp only [value_run_of_cancelled, List.length_append, Report.append, List.append_nil,
        implies_true, and_self]

/-- A model of one alternative, which takes a car. -/
def driving : Chooser Float where
  model := {
    name := "driving"
    schema := ⟨[("car", .scalar 0)], ["car"], []⟩
    alternatives := #[
      ⟨1, "drive", [⟨none, ⟨"0", .constant 0⟩, 1⟩], some ⟨"@car", .read (.scalar "car" 0)⟩, none⟩]
    positions := (∅ : Std.TreeMap AlternativeId Nat).insert 1 0
    nests := .flat 1 }
  draws := fun _ _ => 0
  traced := []

/-- A decision maker with a car. -/
def driver : DecisionMaker Float :=
  ⟨1, ⟨none, none, none⟩, AttributeSet.empty.insertScalar "car" 1⟩

/-- A decision maker without a car. -/
def walker : DecisionMaker Float :=
  ⟨2, ⟨none, none, none⟩, .empty⟩

/-- The decision maker without a car does not stop the other one, although the second chunk is taken
first. -/
theorem gather_driverAndWalker :
    let report := gather (chunks 1 [driver, walker])
      (workAll driving .empty .logsum (fun _ => false) (chunks 1 [driver, walker]) [1, 0])
    report.outcomes.map (·.id) = [1] ∧
      report.failures = [⟨2, "driving", "decision maker 2 has no available alternatives"⟩] ∧
      report.skipped = 0 := by
  have hchunks : chunks 1 [driver, walker] = [[driver], [walker]] := by simp [chunks]
  have horder : [1, 0].Perm (List.range (chunks 1 [driver, walker]).length) := by
    rw [hchunks]
    decide
  have hdriver : (driving.run (driving.model.bind driver .empty) .logsum).value.map (·.id) =
      .ok 1 := by
    with_unfolding_all rfl
  have hwalker : (driving.run (driving.model.bind walker .empty) .logsum).value =
      .error (.nothingAvailable 2) := by
    with_unfolding_all rfl
  rcases run_eq_alone driving .empty ⟨.logsum, 1, none, false⟩ [driver, walker] with
    ⟨hreport, -, -, hworkers, -⟩
  rw [hworkers (fun _ => false) [1, 0] horder, hreport]
  cases hrun : (driving.run (driving.model.bind driver .empty) .logsum).value with
  | error e => simp [hrun, Except.map] at hdriver
  | ok outcome =>
    have hid : outcome.id = 1 := by simpa [hrun, Except.map] using hdriver
    have hmessage : ChoiceError.message (.nothingAvailable 2 : ChoiceError Float) =
        "decision maker 2 has no available alternatives" := by decide
    have hnames : walker.id = 2 ∧ driving.model.name = "driving" := ⟨rfl, rfl⟩
    refine ⟨?_, ?_, rfl⟩
    · simp [hrun, hwalker, hid]
    · simp [hrun, hwalker, hmessage, hnames]

end Batch
end DiscreteChoice
