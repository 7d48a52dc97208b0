/-!
# How new items are found and how a run treats stored ones

`IndexOptions` steers the search for files, `UpdateOptions` a whole update.  Each has a
`description`, one line that names every setting.
-/

set_option autoImplicit false

namespace ArchiveUpdate

/-- Whether a wildcard selects the names that match it or the others. -/
inductive FilterPolicy where
  | include
  | exclude
  deriving DecidableEq, Repr, Inhabited

/-- Whether a symbolic link stands for what it leads to or for itself. -/
inductive SymlinkPolicy where
  | follow
  | doNotFollow
  deriving DecidableEq, Repr, Inhabited

/-- Whether deleting a stored directory deletes what lies below it. -/
inductive DeletePolicy where
  | itemOnly
  | recurseDirs
  deriving DecidableEq, Repr, Inhabited

/-- Whether a stored item is kept beside a new item of the same path. -/
inductive UpdateMode where
  | append
  | overwrite
  deriving DecidableEq, Repr, Inhabited

/-- How directories are searched for new items. -/
structure IndexOptions where
  recursive : Bool := true
  retainFolders : Bool := false
  onlyFiles : Bool := false
  filterPolicy : FilterPolicy := .include
  symlinkPolicy : SymlinkPolicy := .follow
  deriving DecidableEq, Repr, Inhabited

/-- The settings of an update whose progress goes to a reporter of type `ρ`. -/
structure UpdateOptions (ρ : Type) where
  mode : UpdateMode := .append
  index : IndexOptions := {}
  reporter : Option ρ := none

namespace FilterPolicy

/-- Whether the policy selects names that match. -/
def isInclude : FilterPolicy → Bool
  | .include => true
  | .exclude => false

/-- Whether a name is selected, given whether it matches. -/
def selects : FilterPolicy → Bool → Bool
  | .include, matched => matched
  | .exclude, matched => !matched

/-- The name of the setting. -/
def label : FilterPolicy → String
  | .include => "Include"
  | .exclude => "Exclude"

end FilterPolicy

namespace SymlinkPolicy

/-- Whether links are followed. -/
def follows : SymlinkPolicy → Bool
  | .follow => true
  | .doNotFollow => false

/-- The name of the setting. -/
def label : SymlinkPolicy → String
  | .follow => "Follow"
  | .doNotFollow => "DoNotFollow"

end SymlinkPolicy

namespace UpdateMode

/-- The name of the setting. -/
def label : UpdateMode → String
  | .append => "Append"
  | .overwrite => "Overwrite"

end UpdateMode

namespace IndexOptions

/-- One line with every setting. -/
def description (o : IndexOptions) : String :=
  s!"IndexOptions \x7b recursive: {o.recursive}, retain_folder_structure: {o.retainFolders}, " ++
  s!"only_files: {o.onlyFiles}, filter_policy: {o.filterPolicy.label}, " ++
  s!"symlink_policy: {o.symlinkPolicy.label} \x7d"

end IndexOptions

namespace UpdateOptions

variable {ρ : Type}

/-- The same settings for another run, without the reporter, which serves one owner only. -/
def settings (o : UpdateOptions ρ) : UpdateOptions ρ := { o with reporter := none }

/-- One line with every setting; of the reporter it says whether there is one. -/
def description (o : UpdateOptions ρ) : String :=
  s!"UpdateOptions \x7b mode: {o.mode.label}, index: {o.index.description}, " ++
  s!"progress: {o.reporter.isSome} \x7d"

end UpdateOptions

end ArchiveUpdate
