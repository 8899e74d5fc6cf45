import Mathlib
import DiscreteChoice.Run.FileAccess

/-!
# Files that are written

A file that was written is read back, and the files at other places stay as they are. The directories
stay the same: a file is only written into a directory that is there, and never over one.

Main results:

- Theorem `isDirectory_dropLast_of_locate`: a path leads into a directory that is there.
- Theorem `locate_write`: a path leads to the same place when files have been written.
- Theorem `read_of_write`: a file that was written is read back.
- Theorem `read_write_of_other`: the files at other places stay as they are.
-/

namespace DiscreteChoice
namespace FileStore

variable {store written : FileStore} {path other : String} {location : List String}

/-! ## Directories -/

/-- A path is that of a directory when it is on the way to the working directory or to a file. -/
theorem isDirectory_iff : store.isDirectory location = true ↔
    location <+: store.directory ∨
      ∃ file, file ∈ store.files ∧ location <+: file ∧ location ≠ file := by
  simp only [isDirectory, Bool.or_eq_true, List.any_eq_true, Std.TreeMap.mem_keys,
    Bool.and_eq_true, List.isPrefixOf_iff_prefix, decide_eq_true_eq]
  refine or_congr Iff.rfl (exists_congr fun file => and_congr_right fun _ =>
    and_congr_right fun hstands => ?_)
  exact ⟨fun h heq => absurd h (by rw [heq]; omega),
    fun h => lt_of_le_of_ne hstands.length_le fun heq => h (hstands.eq_of_length heq)⟩

/-- What is on the way to a directory is a directory. -/
theorem isDirectory_mono {above : List String} (habove : above <+: location)
    (h : store.isDirectory location = true) : store.isDirectory above = true := by
  rw [isDirectory_iff] at h ⊢
  rcases h with hworking | ⟨file, hfile, hstands, hne⟩
  · exact .inl (habove.trans hworking)
  · refine .inr ⟨file, hfile, habove.trans hstands, ?_⟩
    rintro rfl
    exact hne (hstands.eq_of_length (Nat.le_antisymm hstands.length_le habove.length_le))

theorem isDirectory_dropLast (h : store.isDirectory location = true) :
    store.isDirectory location.dropLast = true :=
  isDirectory_mono (List.dropLast_prefix location) h

/-- The place that a name leads to is in a directory, or above one. -/
theorem isDirectory_dropLast_below {directory : List String}
    (hdirectory : store.isDirectory directory = true) (name : String) :
    store.isDirectory (below directory name).dropLast = true := by
  rw [below]
  split_ifs
  · exact isDirectory_dropLast (isDirectory_dropLast hdirectory)
  · rw [List.dropLast_concat]
    exact hdirectory

/-- A walk gets past a name when there is a directory where one has to be. -/
theorem walk_cons_eq_ok {enters : Bool} {directory rest : List String} {name : String} :
    store.walk enters directory (name :: rest) = .ok location ↔
      ¬255 < name.utf8ByteSize ∧
        ((rest.isEmpty && !enters) || store.isDirectory (below directory name)) = true ∧
        store.walk enters (below directory name) rest = .ok location := by
  rw [walk]
  by_cases hlong : 255 < name.utf8ByteSize
  · simp [hlong]
  by_cases hgoes : ((rest.isEmpty && !enters) || store.isDirectory (below directory name)) = true
  · simp [hlong, hgoes]
  · rw [if_neg hlong, if_neg hgoes]
    constructor
    · split_ifs <;> nofun
    · rintro ⟨-, h, -⟩
      exact absurd h hgoes

/-- A walk from a directory ends in a directory that is there. -/
theorem isDirectory_dropLast_of_walk {enters : Bool} {directory names : List String}
    (hdirectory : store.isDirectory directory = true)
    (hwalk : store.walk enters directory names = .ok location) :
    store.isDirectory location.dropLast = true := by
  induction names generalizing directory with
  | nil =>
    rw [walk] at hwalk
    rcases Except.ok.inj hwalk with rfl
    exact isDirectory_dropLast hdirectory
  | cons name rest ih =>
    rcases walk_cons_eq_ok.mp hwalk with ⟨-, hgoes, hrest⟩
    cases hnext : store.isDirectory (below directory name) with
    | true => exact ih hnext hrest
    | false =>
      -- The last name need not be that of a directory, but it is looked up in one.
      have hlast : rest = [] := by simp_all
      subst hlast
      rw [walk] at hrest
      rcases Except.ok.inj hrest with rfl
      exact isDirectory_dropLast_below hdirectory name

/-- A walk starts at the root or in the working directory, which are there. -/
theorem isDirectory_start (store : FileStore) (path : String) :
    store.isDirectory (store.start path) = true := by
  rw [isDirectory_iff, start]
  split_ifs
  · exact .inl List.nil_prefix
  · exact .inl List.prefix_rfl

/-- A path leads into a directory that is there. -/
theorem isDirectory_dropLast_of_locate (h : store.locate path = .ok location) :
    store.isDirectory location.dropLast = true := by
  rw [locate] at h
  split_ifs at h
  exact isDirectory_dropLast_of_walk (isDirectory_start store path) h

/-! ## Stores with the same directories -/

section SameDirectories

variable (hsame : ∀ directory, written.isDirectory directory = store.isDirectory directory)
include hsame

/-- Where a walk ends depends on the directories only. -/
theorem walk_congr {enters : Bool} {directory names : List String} :
    written.walk enters directory names = .ok location ↔
      store.walk enters directory names = .ok location := by
  induction names generalizing directory with
  | nil => rfl
  | cons name rest ih =>
    rw [walk_cons_eq_ok, walk_cons_eq_ok, hsame, ih]

/-- Where a path leads depends on the directories only. -/
theorem locate_congr (hworking : written.directory = store.directory) :
    written.locate path = .ok location ↔ store.locate path = .ok location := by
  rw [locate, locate, start, hworking, ← start]
  split_ifs
  all_goals first | exact Iff.rfl | exact walk_congr hsame

end SameDirectories

/-! ## Writing -/

/-- What it takes to write a file: a place that is not a directory. -/
theorem write_eq_ok {text : String} : store.write path text = .ok written ↔
    ∃ location, store.locate path = .ok location ∧ store.isDirectory location = false ∧
      namesDirectory path = false ∧ written = store.put location text.toUTF8 := by
  rw [write]
  cases hlocate : store.locate path with
  | error e => simp [bind, Except.bind]
  | ok location =>
    simp only [bind, Except.bind]
    cases hdirectory : store.isDirectory location <;> cases hname : namesDirectory path <;>
      simp [hdirectory, @eq_comm _ written]

/-- A file in a directory that is there makes no new directory. -/
theorem isDirectory_put (hparent : store.isDirectory location.dropLast = true)
    (contents : ByteArray) (directory : List String) :
    (store.put location contents).isDirectory directory = store.isDirectory directory := by
  rw [Bool.eq_iff_iff, isDirectory_iff, isDirectory_iff]
  simp only [put, Std.TreeMap.mem_insert, Std.LawfulEqCmp.compare_eq_iff_eq]
  constructor
  · rintro (hworking | ⟨file, rfl | hfile, hstands, hne⟩)
    · exact .inl hworking
    · rcases List.eq_nil_or_concat' location with rfl | ⟨parent, name, rfl⟩
      · exact absurd (List.prefix_nil.mp hstands) hne
      · rw [List.dropLast_concat] at hparent
        exact isDirectory_iff.mp
          (isDirectory_mono ((List.prefix_concat_iff.mp hstands).resolve_left hne) hparent)
    · exact .inr ⟨file, hfile, hstands, hne⟩
  · rintro (hworking | ⟨file, hfile, hstands, hne⟩)
    · exact .inl hworking
    · exact .inr ⟨file, .inr hfile, hstands, hne⟩

variable {text : String}

/-- A path leads to the same place when a file has been written. -/
theorem locate_write (hwrite : store.write path text = .ok written) :
    written.locate other = .ok location ↔ store.locate other = .ok location := by
  rcases write_eq_ok.mp hwrite with ⟨place, hlocate, -, -, rfl⟩
  exact locate_congr (isDirectory_put (isDirectory_dropLast_of_locate hlocate) _) rfl

/-- What it takes to read a file. -/
theorem read_eq_ok {contents : ByteArray} : store.read path = .ok contents ↔
    ∃ location, store.locate path = .ok location ∧ store.isDirectory location = false ∧
      namesDirectory path = false ∧ store.contents? location = some contents := by
  rw [read]
  cases hlocate : store.locate path with
  | error e => simp [bind, Except.bind]
  | ok location =>
    simp only [bind, Except.bind]
    cases hdirectory : store.isDirectory location with
    | true => simp [hdirectory]
    | false =>
      cases hcontents : store.contents? location <;> cases hname : namesDirectory path <;>
        simp [hdirectory, hcontents]

/-- A file that was written is read back. -/
theorem read_of_write (hwrite : store.write path text = .ok written) :
    written.read path = .ok text.toUTF8 := by
  rcases write_eq_ok.mp hwrite with ⟨place, hlocate, hfile, hname, rfl⟩
  refine read_eq_ok.mpr ⟨place, (locate_write hwrite).mpr hlocate, ?_, hname, by simp⟩
  rw [isDirectory_put (isDirectory_dropLast_of_locate hlocate), hfile]

/-- Whether two paths lead to the same place. -/
def SamePlace (store : FileStore) (path other : String) : Prop :=
  ∃ location, store.locate path = .ok location ∧ store.locate other = .ok location

theorem samePlace_comm {first second : String} :
    store.SamePlace first second ↔ store.SamePlace second first :=
  exists_congr fun _ => and_comm

/-- Two paths lead to the same place, or not, when a file has been written. -/
theorem samePlace_write (hwrite : store.write path text = .ok written) (first second : String) :
    written.SamePlace first second ↔ store.SamePlace first second := by
  rw [SamePlace, SamePlace]
  exact exists_congr fun location => and_congr (locate_write hwrite) (locate_write hwrite)

/-- The files at other places stay as they are. -/
theorem read_write_of_other (hwrite : store.write path text = .ok written)
    (hother : ¬store.SamePlace path other) {contents : ByteArray} :
    written.read other = .ok contents ↔ store.read other = .ok contents := by
  rcases write_eq_ok.mp hwrite with ⟨place, hlocate, hfile, hname, rfl⟩
  have hparent := isDirectory_dropLast_of_locate hlocate
  rw [read_eq_ok, read_eq_ok]
  refine exists_congr fun location => ?_
  rw [locate_write hwrite, isDirectory_put hparent, contents?_put]
  refine and_congr_right fun hlocation => ?_
  have hplaces : place ≠ location := by
    rintro rfl
    exact hother ⟨place, hlocate, hlocation⟩
  rw [if_neg hplaces]

end FileStore
end DiscreteChoice
