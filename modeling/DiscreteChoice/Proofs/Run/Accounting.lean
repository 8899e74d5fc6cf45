import Mathlib
import DiscreteChoice.Proofs.Input.Population
import DiscreteChoice.Proofs.Run.FileAccess
import DiscreteChoice.Proofs.Run.Loading

/-!
# Runs account for the whole population

A run with refused inputs ends with their error, and the files are as they were. A run that ends with
a report has written a row for each outcome and for each failure, and together with those that were
skipped these are the rows of the population, each once.

Main results:

- Theorem `writeTable_eq_ok`: what it takes to write a table.
- Theorem `holdsRows_of_writeOutputs`: the outputs hold a row for each outcome and each failure.
- Theorem `run_eq_ok_iff`: when a run ends with a report.
- Theorem `run_accounts`: a run changes no file on refused inputs, and loses nobody otherwise.
-/

namespace DiscreteChoice
namespace Run

variable {store after : FileStore} (config : RunConfig)

/-! ## Outputs -/

/-- A file holds the given rows when these are what it is split into as a table. -/
def HoldsRows (store : FileStore) (file : String) (rows : List (List String)) : Prop :=
  ∃ contents, store.read file = .ok contents ∧
    Csv.split contents.toList = rows.map (·.map Text.bytes)

/-- A write leaves the store with the file, or as it was. -/
theorem run_write (file contents : String) (store : FileStore) :
    (FileAccess.write file contents : OnStore (Except FileError Unit)).run.run store =
      match store.write file contents with
      | .error e => (.ok (.error e), store)
      | .ok after => (.ok (.ok ()), after) := by
  have hstate : (FileAccess.write file contents : StateM FileStore _).run store =
      match store.write file contents with
      | .error e => (.error e, store)
      | .ok after => (.ok (), after) := by
    simp only [FileAccess.write, StateT.run_bind, StateT.run_get]
    cases h : store.write file contents with
    | error e => simp [h]; rfl
    | ok after => simp [h]; rfl
  have hlift : (FileAccess.write file contents : OnStore (Except FileError Unit)) =
      ExceptT.lift (FileAccess.write file contents) := rfl
  rw [hlift, ExceptT.run_lift, StateT.run_map, hstate]
  cases store.write file contents <;> rfl

/-- Writing a table leaves the store with its file, or as it was. -/
theorem run_writeTable (file written : String) (store : FileStore) :
    (writeTable file (.ok written) : OnStore Unit).run.run store =
      match store.write file written with
      | .error e => (.error (.file e), store)
      | .ok after => (.ok (), after) := by
  have htext : (liftExcept ((Except.ok written : Except Csv.Fault String).mapError .table) :
      OnStore String).run.run store = (.ok written, store) := rfl
  have hrun := run_write file written store
  rw [writeTable, run_bind_of_ok htext]
  cases h : store.write file written with
  | error e =>
    rw [h] at hrun
    rw [run_bind_of_ok hrun]
    rfl
  | ok after =>
    rw [h] at hrun
    rw [run_bind_of_ok hrun]
    rfl

/-- What it takes to write a table. -/
theorem writeTable_eq_ok {file : String} {text : Except Csv.Fault String} :
    (writeTable file text : OnStore Unit).run.run store = (.ok (), after) ↔
      ∃ written, text = .ok written ∧ store.write file written = .ok after := by
  cases text with
  | error fault =>
    constructor
    · intro h
      exact absurd (congrArg Prod.fst h) nofun
    · rintro ⟨written, htext, -⟩
      exact absurd htext nofun
  | ok written =>
    have hstore := run_writeTable file written store
    cases hwrite : store.write file written with
    | error e =>
      rw [hwrite] at hstore
      rw [hstore]
      constructor
      · intro h
        exact absurd (congrArg Prod.fst h) nofun
      · rintro ⟨other, htext, hother⟩
        rcases Except.ok.inj htext with rfl
        simp [hwrite] at hother
    | ok between =>
      rw [hwrite] at hstore
      rw [hstore]
      constructor
      · intro h
        exact ⟨written, rfl, hwrite.trans (congrArg Except.ok (congrArg Prod.snd h))⟩
      · rintro ⟨other, htext, hother⟩
        rcases Except.ok.inj htext with rfl
        rw [Except.ok.inj (hwrite.symm.trans hother)]

/-- What it takes to write the outputs of a run. -/
theorem exists_of_writeOutputs_eq_ok {model : Model Float} {report : Report Float}
    {entries : List (LogEntry Float)}
    (h : (writeOutputs config model report : OnStore _).run.run store = (.ok entries, after)) :
    ∃ between, (writeTable config.outputFile
        (ResultTable.write model config.mode report.outcomes) : OnStore Unit).run.run store =
          (.ok (), between) ∧
      match config.failuresFile with
      | none => after = between
      | some file => (writeTable file (ResultTable.writeFailures report.failures) :
          OnStore Unit).run.run between = (.ok (), after) := by
  rcases run_bind_eq_ok.mp h with ⟨⟨⟩, between, hresults, hrest⟩
  refine ⟨between, hresults, ?_⟩
  cases hfile : config.failuresFile with
  | none =>
    simp only [hfile] at hrest
    split_ifs at hrest <;> exact (congrArg Prod.snd hrest).symm
  | some file =>
    simp only [hfile] at hrest
    rcases run_bind_eq_ok.mp hrest with ⟨⟨⟩, last, hfailures, hend⟩
    rcases Prod.mk.inj hend with ⟨-, rfl⟩
    exact hfailures

/-- The outputs of a run hold their rows, when they are different files. -/
theorem holdsRows_of_writeOutputs {model : Model Float} {report : Report Float}
    {entries : List (LogEntry Float)}
    (hfiles : ∀ file ∈ config.failuresFile, ¬store.SamePlace config.outputFile file)
    (h : (writeOutputs config model report : OnStore _).run.run store = (.ok entries, after)) :
    HoldsRows after config.outputFile (ResultTable.header model config.mode ::
        report.outcomes.map (ResultTable.row model config.mode)) ∧
      ∀ file ∈ config.failuresFile, HoldsRows after file
        (ResultTable.failureRows report.failures) := by
  rcases exists_of_writeOutputs_eq_ok config h with ⟨between, hresults, hfailures⟩
  rcases writeTable_eq_ok.mp hresults with ⟨results, hresultText, hwriteResults⟩
  have hresultRows := ResultTable.split_bytes_of_write hresultText
  cases hfile : config.failuresFile with
  | none =>
    rw [hfile] at hfailures
    rcases hfailures with rfl
    exact ⟨⟨_, FileStore.read_of_write hwriteResults, hresultRows⟩, nofun⟩
  | some file =>
    rw [hfile] at hfailures
    rcases writeTable_eq_ok.mp hfailures with ⟨failures, hfailureText, hwriteFailures⟩
    have hother : ¬between.SamePlace file config.outputFile := by
      rw [FileStore.samePlace_write hwriteResults, FileStore.samePlace_comm]
      exact hfiles file hfile
    refine ⟨⟨_, (FileStore.read_write_of_other hwriteFailures hother).mpr
      (FileStore.read_of_write hwriteResults), hresultRows⟩, fun other hotherFile => ?_⟩
    rcases Option.mem_some.mp hotherFile with rfl
    exact ⟨_, FileStore.read_of_write hwriteFailures,
      ResultTable.split_bytes_of_writeFailures hfailureText⟩

/-! ## Runs -/

/-- How a run decides. -/
abbrev chooserOf (inputs : Inputs) : Chooser Float :=
  Chooser.seeded inputs.model config.seed config.traced

/-- What a run with a report leaves behind: the population has one decision maker for each row, with
the id that stands in the row, the report is read off their fates, and the outcomes and the failures
are the rows of the tables that were written, each of which starts with the id. -/
structure Accounts (config : RunConfig) (cancelled : Nat → Bool) (before after : FileStore)
    (report : Report Float) (inputs : Inputs) {width : Nat}
    (population : Population.Rectangle width) : Prop where
  loaded : given (loadInputs config) before = .ok inputs
  read : ∃ contents, before.read config.populationFile = .ok contents ∧
    Csv.read contents.toList = population.table
  people : Population.AreOf inputs.people population.table
  ids : List.Forall₂ (fun row person => population.HasId row person.id) population.rows inputs.people
  fates : report = .ofFates (Batch.fates (chooserOf config inputs) inputs.data config.batchOptions
    cancelled inputs.people)
  names : List.Forall₂ (fun person fate => Fate.Names fate person.id) inputs.people
    (Batch.fates (chooserOf config inputs) inputs.data config.batchOptions cancelled inputs.people)
  conserved :
    report.outcomes.length + report.failures.length + report.skipped = population.rows.length
  results : HoldsRows after config.outputFile (ResultTable.header inputs.model config.mode ::
    report.outcomes.map (ResultTable.row inputs.model config.mode))
  resultIds : (ResultTable.header inputs.model config.mode ::
      report.outcomes.map (ResultTable.row inputs.model config.mode)).map List.head? =
    some "decision_maker_id" :: report.outcomes.map fun outcome => some (toString outcome.id.toNat)
  failures : ∀ file ∈ config.failuresFile,
    HoldsRows after file (ResultTable.failureRows report.failures)

/-- A run with refused inputs ends with their error. -/
theorem run_of_error {cancelled : Nat → Bool} {e : RunError}
    (h : given (loadInputs config) store = .error e) :
    (run config cancelled : StateM FileStore _).run store = (pure (.error e), store) := by
  have hload := (readsOnly_loadInputs config).run_eq store
  rw [h] at hload
  rw [run, stateM_run_bind hload]
  rfl

/-- A run with inputs ends as the writing of its outputs does. -/
theorem run_of_ok {cancelled : Nat → Bool} {inputs : Inputs}
    (h : given (loadInputs config) store = .ok inputs) :
    (run config cancelled : StateM FileStore _).run store =
      (match given (writeOutputs config inputs.model (decideAll config cancelled inputs).value)
          store with
        | .error e => ⟨.error e, (decideAll config cancelled inputs).log⟩
        | .ok entries => ⟨.ok (decideAll config cancelled inputs).value,
            (decideAll config cancelled inputs).log ++ entries⟩,
        ((writeOutputs config inputs.model (decideAll config cancelled inputs).value :
          OnStore _).run.run store).2) := by
  have hload := (readsOnly_loadInputs config).run_eq store
  rw [h] at hload
  rw [run, stateM_run_bind hload, given]
  rcases houtputs : (writeOutputs config inputs.model (decideAll config cancelled inputs).value :
    OnStore _).run.run store with ⟨ending, last⟩
  refine (stateM_run_bind houtputs _).trans ?_
  cases ending <;> rfl

/-- A run ends with a report when it has loaded its inputs and written its outputs. -/
theorem run_eq_ok_iff {cancelled : Nat → Bool} {report : Report Float} :
    (∃ log, (run config cancelled : StateM FileStore _).run store = (⟨.ok report, log⟩, after)) ↔
      ∃ inputs entries, given (loadInputs config) store = .ok inputs ∧
        (decideAll config cancelled inputs).value = report ∧
        (writeOutputs config inputs.model report : OnStore _).run.run store =
          (.ok entries, after) := by
  constructor
  · rintro ⟨log, h⟩
    cases hinputs : given (loadInputs config) store with
    | error e =>
      rw [run_of_error config hinputs] at h
      have hending : Except.error e = Except.ok report := congrArg (·.1.value) h
      cases hending
    | ok inputs =>
      rcases houtputs : (writeOutputs config inputs.model (decideAll config cancelled inputs).value :
        OnStore _).run.run store with ⟨ending, last⟩
      rw [run_of_ok config hinputs, given, houtputs] at h
      cases ending with
      | error e =>
        have hending : Except.error e = Except.ok report := congrArg (·.1.value) h
        cases hending
      | ok entries =>
        have hreport := Except.ok.inj (congrArg (·.1.value) h)
        rcases congrArg Prod.snd h with rfl
        exact ⟨inputs, entries, rfl, hreport, hreport ▸ houtputs⟩
  · rintro ⟨inputs, entries, hinputs, rfl, houtputs⟩
    rw [run_of_ok config hinputs, given, houtputs]
    exact ⟨_, rfl⟩

/-- A run changes no file on refused inputs, and ends with the error of the first of them. A run that
ends with a report accounts for every row of the population once: an outcome or a failure about the
decision maker of the row, each of them with a row in the file for it, or a place among those that
are skipped. -/
theorem run_accounts (config : RunConfig) (cancelled : Nat → Bool) (store : FileStore)
    (hfiles : ∀ file ∈ config.failuresFile, ¬store.SamePlace config.outputFile file) :
    (∀ e, (inputErrors config store).head? = some e →
      (run config cancelled : StateM FileStore _).run store = (pure (.error e), store)) ∧
    ∀ report log after,
      (run config cancelled : StateM FileStore _).run store = (⟨.ok report, log⟩, after) →
        ∃ (inputs : Inputs) (width : Nat) (population : Population.Rectangle width),
          Accounts config cancelled store after report inputs population := by
  refine ⟨fun e he => run_of_error config (given_loadInputs_of_inputErrors config he),
    fun report log after hrun => ?_⟩
  rcases (run_eq_ok_iff config).mp ⟨log, hrun⟩ with ⟨inputs, entries, hinputs, rfl, houtputs⟩
  rcases people_of_loadInputs config hinputs with ⟨contents, hread, hpeople⟩
  rcases holdsRows_of_writeOutputs config hfiles houtputs with ⟨hresults, hfailures⟩
  have hfates := Batch.value_run_eq_ofFates (chooserOf config inputs) inputs.data
    config.batchOptions cancelled inputs.people
  rcases Population.Rectangle.exists_table_eq_of_areOf hpeople with ⟨width, population, htable⟩
  rw [← htable] at hpeople
  have hids := (population.forall₂_gives_of_areOf hpeople).imp fun row person hgives =>
    (hgives .id).hasId
  refine ⟨inputs, width, population, hinputs, ⟨contents, hread, htable.symm⟩, hpeople, hids, hfates,
    Batch.forall₂_names_fates .., ?_, hresults, ResultTable.map_head?_rows .., hfailures⟩
  rw [decideAll, hfates, Report.ofFates_conserves, Batch.length_fates, hids.length_eq]

/-- A model of one alternative. -/
def trip : ModelConfig Float where
  name := "trip"
  scopes := (∅ : Std.TreeMap String Scope).insert "car" .scalar
  constants := ∅
  alternatives := [⟨1, "go", some "@car", [], none, none⟩]
  nests := none

/-- The text of the model. -/
def tripText : String :=
  "\x7b\"name\": \"trip\", \"variables\": \x7b\"car\": \"scalar\"\x7d, " ++
    "\"alternatives\": [\x7b\"id\": 1, \"name\": \"go\", \"utility\": \"@car\"\x7d]\x7d"

/-- The model in the working directory, and a population of two in another one. -/
def travellers : FileStore :=
  ({ FileStore.empty with directory := ["trip"] }.put ["trip", "model.json"] tripText.toUTF8).put
    ["data", "people.csv"] "id\n7\n4\n".toUTF8

/-- A run on the travellers, one by one. -/
def travel : RunConfig where
  modelFile := "model.json"
  populationFile := "/data/people.csv"
  matricesFile := none
  zonesFile := none
  outputFile := "results.csv"
  failuresFile := some "failures.csv"
  mode := .logsum
  seed := 0
  parallelism := none
  batchSize := 1
  traced := []
  showProgress := false

/-- The inputs of the travellers are accepted. -/
theorem exists_given_travellers : ∃ inputs, given (loadInputs travel) travellers = .ok inputs := by
  have hmodelFile : travellers.read "model.json" = .ok tripText.toUTF8 := by with_unfolding_all rfl
  have hpeopleFile : travellers.read "/data/people.csv" = .ok "id\n7\n4\n".toUTF8 := by
    with_unfolding_all rfl
  have hdialect : dialect? "model.json" = some .json := by decide
  have htext : String.fromUTF8? tripText.toUTF8 = some tripText := dif_pos tripText.isValidUTF8
  have hdocument : (Json.parse? tripText).bind (ModelConfig.ofDocument? .json) = some trip := by cbv
  have hcompiles : (Model.compile trip).toOption.isSome = true := by cbv
  have hreads : (Population.read "/data/people.csv" "id\n7\n4\n".toUTF8).toOption.isSome = true := by
    cbv
  cases hmodel : Model.compile trip with
  | error e =>
    rw [hmodel] at hcompiles
    exact absurd hcompiles Bool.false_ne_true
  | ok model =>
    cases hpeople : Population.read "/data/people.csv" "id\n7\n4\n".toUTF8 with
    | error e =>
      rw [hpeople] at hreads
      exact absurd hreads Bool.false_ne_true
    | ok people =>
      have hgivenModel : given (modelOf travel) travellers = .ok model := by
        rw [modelOf, travel, given_loadModel, given_readConfig, hdialect]
        simp only [hmodelFile, decodeConfig, htext, document?, hdocument, ok_bind, hmodel]
        rfl
      have hgivenPeople : given (populationOf travel) travellers = .ok people := by
        rw [populationOf, travel, given_readTable, hpeopleFile]
        exact hpeople
      refine ⟨⟨model, ⟨.empty, .empty⟩, people⟩, ?_⟩
      rw [given_loadInputs, hgivenModel, hgivenPeople]
      rfl

/-- The run on the travellers ends with a report, as its tables can be written. -/
theorem exists_run_travellers (cancelled : Nat → Bool) :
    ∃ report log after,
      (run travel cancelled : StateM FileStore _).run travellers = (⟨.ok report, log⟩, after) := by
  rcases exists_given_travellers with ⟨inputs, hinputs⟩
  generalize hreport : (decideAll travel cancelled inputs).value = report
  have hwritable : ∃ text,
      ResultTable.write inputs.model travel.mode report.outcomes = .ok text :=
    ResultTable.exists_write_eq_ok nofun
  rcases hwritable with ⟨results, hresults⟩
  rcases ResultTable.exists_writeFailures_eq_ok report.failures with ⟨failures, hfailures⟩
  have hwriteResults : travellers.write "results.csv" results =
      .ok (travellers.put ["trip", "results.csv"] results.toUTF8) :=
    FileStore.write_eq_ok.mpr ⟨["trip", "results.csv"], by with_unfolding_all rfl,
      by with_unfolding_all rfl, by with_unfolding_all rfl, rfl⟩
  have hwriteFailures : (travellers.put ["trip", "results.csv"] results.toUTF8).write "failures.csv"
      failures = .ok ((travellers.put ["trip", "results.csv"] results.toUTF8).put
        ["trip", "failures.csv"] failures.toUTF8) := by
    refine FileStore.write_eq_ok.mpr ⟨["trip", "failures.csv"], ?_, ?_, by with_unfolding_all rfl, rfl⟩
    · exact (FileStore.locate_write hwriteResults).mpr (by with_unfolding_all rfl)
    · rw [FileStore.isDirectory_put (by with_unfolding_all rfl)]
      with_unfolding_all rfl
  have houtputs : (writeOutputs travel inputs.model report : OnStore _).run.run travellers =
      (.ok [], (travellers.put ["trip", "results.csv"] results.toUTF8).put ["trip", "failures.csv"]
        failures.toUTF8) := by
    have hfirst : (writeTable travel.outputFile (ResultTable.write inputs.model travel.mode
        report.outcomes) : OnStore Unit).run.run travellers =
          (.ok (), travellers.put ["trip", "results.csv"] results.toUTF8) :=
      writeTable_eq_ok.mpr ⟨results, hresults, hwriteResults⟩
    rw [writeOutputs, run_bind_of_ok hfirst]
    exact run_bind_of_ok (writeTable_eq_ok.mpr ⟨failures, hfailures, hwriteFailures⟩) _
  rcases (run_eq_ok_iff travel).mpr ⟨inputs, [], hinputs, hreport, houtputs⟩ with ⟨log, hrun⟩
  exact ⟨report, log, _, hrun⟩

/-- A run on the travellers accounts for both of them, and without a model the same run changes
nothing. -/
theorem run_accounts_travellers :
    (∃ report log after,
      (run travel (· == 1) : StateM FileStore _).run travellers = (⟨.ok report, log⟩, after) ∧
        ∃ (inputs : Inputs) (width : Nat) (population : Population.Rectangle width),
          Accounts travel (· == 1) travellers after report inputs population) ∧
    (run travel (· == 1) : StateM FileStore _).run .empty =
      (pure (.error (.configuration (.unreadable "model.json"
        "No such file or directory (os error 2)"))), .empty) := by
  have hplaces (store : FileStore)
      (hresults : store.locate "results.csv" = .ok (store.directory ++ ["results.csv"]))
      (hfailures : store.locate "failures.csv" = .ok (store.directory ++ ["failures.csv"])) :
      ∀ file ∈ travel.failuresFile, ¬store.SamePlace travel.outputFile file := by
    rintro file hfile ⟨location, hfirst, hsecond⟩
    rcases Option.some.inj hfile with rfl
    have hsame := (hresults.symm.trans hfirst).trans (hfailures.symm.trans hsecond).symm
    exact absurd (List.append_cancel_left (Except.ok.inj hsame)) (by decide)
  constructor
  · have hfiles := hplaces travellers (by with_unfolding_all rfl) (by with_unfolding_all rfl)
    rcases exists_run_travellers (· == 1) with ⟨report, log, after, hrun⟩
    exact ⟨report, log, after, hrun,
      (run_accounts travel (· == 1) travellers hfiles).2 report log after hrun⟩
  · have hfiles := hplaces .empty (by with_unfolding_all rfl) (by with_unfolding_all rfl)
    refine (run_accounts travel (· == 1) .empty hfiles).1 _ ?_
    have hread : FileStore.empty.read "model.json" = .error .notFound := by with_unfolding_all rfl
    have hdialect : dialect? "model.json" = some .json := by decide
    have hmodel : given (modelOf travel) .empty = .error (.configuration (.unreadable "model.json"
        "No such file or directory (os error 2)")) := by
      rw [modelOf, travel, given_loadModel, given_readConfig, hdialect]
      simp only [hread]
      rfl
    rw [inputErrors, errorOf?, hmodel]
    rfl

end Run
end DiscreteChoice
