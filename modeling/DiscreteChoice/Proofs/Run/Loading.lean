import Mathlib
import DiscreteChoice.Run.Basic
import DiscreteChoice.Proofs.Outcome
import DiscreteChoice.Proofs.Run.Fates

/-!
# The inputs of a run

A run looks at all of its inputs before it writes, and leaves the files as they are meanwhile. When
inputs are refused, it is the first of them whose error is given.

Main results:

- Theorem `ReadsOnly.run_bind`: what follows a reading works on the same files.
- Theorem `given_loadInputs`: the inputs are what is given for each of them by itself.
- Theorem `given_loadInputs_of_inputErrors`: the first refused input ends the loading.
- Theorem `people_of_loadInputs`: the decision makers are those of the rows of the population.
-/

namespace DiscreteChoice
namespace Run

/-! ## Computations on files -/

/-- A computation on the files of a store that can fail. -/
abbrev OnStore (β : Type) :=
  ExceptT RunError (StateM FileStore) β

/-- What a computation gives on the files of a store. -/
def given {β : Type} (x : OnStore β) (store : FileStore) : Except RunError β :=
  (x.run.run store).1

/-- A computation that leaves the files as they are. -/
def ReadsOnly {β : Type} (x : OnStore β) : Prop :=
  ∀ store, (x.run.run store).2 = store

variable {β γ : Type} {x : OnStore β} {store after : FileStore}

theorem readsOnly_liftExcept (r : Except RunError β) : ReadsOnly (liftExcept r : OnStore β) :=
  fun _ => rfl

theorem readsOnly_pure (value : β) : ReadsOnly (pure value : OnStore β) :=
  fun _ => rfl

theorem readsOnly_throw (e : RunError) : ReadsOnly (throw e : OnStore β) :=
  fun _ => rfl

theorem readsOnly_read (file : String) :
    ReadsOnly (FileAccess.read file : OnStore (Except FileError ByteArray)) :=
  fun _ => rfl

theorem ReadsOnly.run_eq (hx : ReadsOnly x) (store : FileStore) :
    x.run.run store = (given x store, store) :=
  Prod.ext rfl (hx store)

theorem stateM_run_bind {a : β} {between : FileStore} {y : StateM FileStore β}
    (h : y.run store = (a, between)) (f : β → StateM FileStore γ) :
    (y >>= f).run store = (f a).run between := by
  rw [StateT.run_bind, h]
  rfl

/-- What follows a computation that gave a value works on the files that this one left. -/
theorem run_bind_of_ok {b : β} {between : FileStore} (h : x.run.run store = (.ok b, between))
    (f : β → OnStore γ) : (x >>= f).run.run store = (f b).run.run between := by
  rw [ExceptT.run_bind, stateM_run_bind h]

theorem run_bind_of_error {e : RunError} {between : FileStore}
    (h : x.run.run store = (.error e, between)) (f : β → OnStore γ) :
    (x >>= f).run.run store = (.error e, between) := by
  rw [ExceptT.run_bind, stateM_run_bind h]
  rfl

/-- A computation and what follows it give a value when both do. -/
theorem run_bind_eq_ok {f : β → OnStore γ} {c : γ} :
    (x >>= f).run.run store = (.ok c, after) ↔
      ∃ b between, x.run.run store = (.ok b, between) ∧ (f b).run.run between = (.ok c, after) := by
  constructor
  · intro h
    rcases hx : x.run.run store with ⟨e | b, between⟩
    · rw [run_bind_of_error hx] at h
      exact absurd (congrArg Prod.fst h) nofun
    · rw [run_bind_of_ok hx] at h
      exact ⟨b, between, rfl, h⟩
  · rintro ⟨b, between, hx, hf⟩
    rw [run_bind_of_ok hx, hf]

/-- What follows a computation that leaves the files as they are works on the same files. -/
theorem ReadsOnly.run_bind (hx : ReadsOnly x) (f : β → OnStore γ) (store : FileStore) :
    (x >>= f).run.run store =
      match given x store with
      | .error e => (.error e, store)
      | .ok b => (f b).run.run store := by
  have hrun := hx.run_eq store
  cases h : given x store with
  | error e => exact run_bind_of_error (hrun.trans (by rw [h])) f
  | ok b => exact run_bind_of_ok (hrun.trans (by rw [h])) f

theorem ReadsOnly.bind (hx : ReadsOnly x) {f : β → OnStore γ} (hf : ∀ b, ReadsOnly (f b)) :
    ReadsOnly (x >>= f) := by
  intro store
  rw [hx.run_bind]
  cases given x store with
  | error e => rfl
  | ok b => exact hf b store

theorem ReadsOnly.given_bind (hx : ReadsOnly x) (f : β → OnStore γ) (store : FileStore) :
    given (x >>= f) store = given x store >>= fun b => given (f b) store := by
  rw [given, hx.run_bind]
  cases given x store with
  | error e => rfl
  | ok b => rfl

/-! ## Inputs -/

theorem readsOnly_readConfig (file : String)
    (ofDocument? : Decode.Dialect → Document → Option β) :
    ReadsOnly (readConfig file ofDocument? : OnStore β) := by
  rw [readConfig]
  cases dialect? file with
  | none => exact readsOnly_throw _
  | some dialect =>
    refine (readsOnly_read file).bind fun contents => ?_
    cases contents with
    | error e => exact readsOnly_throw _
    | ok bytes => exact readsOnly_liftExcept _

/-- What a configuration file gives. -/
theorem given_readConfig (file : String) (ofDocument? : Decode.Dialect → Document → Option β)
    (store : FileStore) :
    given (readConfig file ofDocument?) store =
      match dialect? file with
      | none => .error (.configuration (.unsupportedType file))
      | some dialect =>
        match store.read file with
        | .error e => .error (.configuration (.unreadable file e.message))
        | .ok contents => decodeConfig file dialect ofDocument? contents := by
  have hread : given (FileAccess.read file : OnStore _) store = .ok (store.read file) := rfl
  rw [readConfig]
  cases dialect? file with
  | none => rfl
  | some dialect =>
    refine ((readsOnly_read file).given_bind _ store).trans ?_
    rw [hread, ok_bind]
    cases store.read file <;> rfl

/-- What a model file gives. -/
theorem given_loadModel (file : String) (store : FileStore) :
    given (loadModel file) store =
      given (readConfig file ModelConfig.ofDocument?) store >>= fun config =>
        (Model.compile config).mapError .compile := by
  rw [loadModel, (readsOnly_readConfig file _).given_bind]
  rfl

theorem readsOnly_loadModel (file : String) : ReadsOnly (loadModel file) :=
  (readsOnly_readConfig file _).bind fun _ => readsOnly_liftExcept _

theorem readsOnly_readTable (file : String) (ofBytes : ByteArray → Except RunError β) :
    ReadsOnly (readTable file ofBytes) := by
  refine (readsOnly_read file).bind fun contents => ?_
  cases contents with
  | error e => cases e <;> exact readsOnly_throw _
  | ok bytes => exact readsOnly_liftExcept _

theorem given_readTable (file : String) (ofBytes : ByteArray → Except RunError β)
    (store : FileStore) :
    given (readTable file ofBytes) store =
      match store.read file with
      | .error .isDirectory => .error (.table .unreadable)
      | .error e => .error (.file e)
      | .ok contents => ofBytes contents := by
  have hread : given (FileAccess.read file : OnStore _) store = .ok (store.read file) := rfl
  rw [readTable, (readsOnly_read file).given_bind, hread, ok_bind]
  cases store.read file with
  | error e => cases e <;> rfl
  | ok contents => rfl

theorem readsOnly_readOptional (absent : β) (ofBytes : String → ByteArray → Except RunError β)
    (file? : Option String) : ReadsOnly (readOptional absent ofBytes file?) := by
  cases file? with
  | none => exact readsOnly_pure _
  | some file => exact readsOnly_readTable file _

/-- The model that a run reads. -/
abbrev modelOf (config : RunConfig) : OnStore (Model Float) :=
  loadModel config.modelFile

/-- The matrices that a run reads, none without a file. -/
abbrev matricesOf (config : RunConfig) : OnStore (SkimSet Float) :=
  readOptional .empty (fun _ => MatrixTable.read) config.matricesFile

/-- The zones that a run reads, none without a file. -/
abbrev zonesOf (config : RunConfig) : OnStore (ZoneData Float) :=
  readOptional .empty ZoneTable.read config.zonesFile

/-- The population that a run reads. -/
abbrev populationOf (config : RunConfig) : OnStore (List (DecisionMaker Float)) :=
  readTable config.populationFile (Population.read config.populationFile)

/-- Why a computation fails on the files of a store, if it does. -/
def errorOf? (x : OnStore β) (store : FileStore) : Option RunError :=
  match given x store with
  | .error e => some e
  | .ok _ => none

/-- Why the inputs of a run are refused, each looked at by itself: the model, the matrices, the zones
and the population. -/
def inputErrors (config : RunConfig) (store : FileStore) : List RunError :=
  [errorOf? (modelOf config) store, errorOf? (matricesOf config) store,
    errorOf? (zonesOf config) store, errorOf? (populationOf config) store].reduceOption

variable (config : RunConfig)

theorem readsOnly_loadInputs : ReadsOnly (loadInputs config) :=
  (readsOnly_loadModel _).bind fun _ => (readsOnly_readOptional _ _ _).bind fun _ =>
    (readsOnly_readOptional _ _ _).bind fun _ => (readsOnly_readTable _ _).bind fun _ =>
      readsOnly_pure _

/-- The inputs of a run are what is given for each of them by itself. -/
theorem given_loadInputs (store : FileStore) :
    given (loadInputs config) store = do
      let model ← given (modelOf config) store
      let matrices ← given (matricesOf config) store
      let zones ← given (zonesOf config) store
      let people ← given (populationOf config) store
      return ⟨model, ⟨matrices, zones⟩, people⟩ := by
  rw [loadInputs, (readsOnly_loadModel _).given_bind]
  refine congrArg _ (funext fun model => ?_)
  rw [(readsOnly_readOptional _ _ _).given_bind]
  refine congrArg _ (funext fun matrices => ?_)
  rw [(readsOnly_readOptional _ _ _).given_bind]
  refine congrArg _ (funext fun zones => ?_)
  rw [(readsOnly_readTable _ _).given_bind]
  rfl

/-- The first refused input ends the loading. -/
theorem given_loadInputs_of_inputErrors {e : RunError}
    (h : (inputErrors config store).head? = some e) :
    given (loadInputs config) store = .error e := by
  rw [given_loadInputs]
  rw [inputErrors, errorOf?, errorOf?, errorOf?, errorOf?] at h
  generalize given (modelOf config) store = model at h ⊢
  generalize given (matricesOf config) store = matrices at h ⊢
  generalize given (zonesOf config) store = zones at h ⊢
  generalize given (populationOf config) store = people at h ⊢
  cases model with
  | error first => simpa [List.reduceOption] using h
  | ok model =>
    cases matrices with
    | error first => simpa [List.reduceOption] using h
    | ok matrices =>
      cases zones with
      | error first => simpa [List.reduceOption] using h
      | ok zones =>
        cases people with
        | error first => simpa [List.reduceOption] using h
        | ok people => simp [List.reduceOption] at h

/-- The decision makers of a run are those of the rows of its population. -/
theorem people_of_loadInputs {inputs : Inputs}
    (h : given (loadInputs config) store = .ok inputs) :
    ∃ contents, store.read config.populationFile = .ok contents ∧
      Population.AreOf inputs.people (Csv.read contents.toList) := by
  rw [given_loadInputs] at h
  rcases bind_eq_ok.mp h with ⟨model, -, h⟩
  rcases bind_eq_ok.mp h with ⟨matrices, -, h⟩
  rcases bind_eq_ok.mp h with ⟨zones, -, h⟩
  rcases bind_eq_ok.mp h with ⟨people, hpeople, h⟩
  rcases Except.ok.inj h with rfl
  rw [given_readTable] at hpeople
  cases hread : store.read config.populationFile with
  | error e =>
    rw [hread] at hpeople
    cases e <;> exact absurd hpeople nofun
  | ok contents =>
    rw [hread] at hpeople
    exact ⟨contents, rfl, Population.areOf_of_ofTable hpeople⟩

end Run
end DiscreteChoice
