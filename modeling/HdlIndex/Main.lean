import HdlIndex.Command.Run
/-! The command line. -/
namespace HdlIndex.Command

/-- Looks for a file. The errors of the system are told apart as far as their wording differs; any
other one counts as a missing file. -/
def findFile (path : String) : IO Found := do
  try
    return .file (← IO.FS.readBinFile path)
  catch
    | .inappropriateType _ code _ => return if code = 21 then .directory else .throughFile
    | .invalidArgument _ code _ => return if code = 22 then .brokenName else .nameTooLong
    | _ => return .missing

/-- The paths that a request may read: the settings file that it names or else the usual one, and
its design file. -/
def pathsOf (request : Request) : List String :=
  request.config.getD settingsFile :: request.file.toList

section LookUp

variable {find find' : String → Found} {request : Request}

theorem readSettings_congr {path : String} (h : find path = find' path) :
    readSettings find path = readSettings find' path := by
  rw [readSettings, readSettings, h]

/-- A request asks for the files at its paths and for no others. -/
theorem run_congr (h : ∀ path ∈ pathsOf request, find path = find' path) :
    run find request = run find' request := by
  rw [pathsOf, List.forall_mem_cons] at h
  obtain ⟨hConfig, hFile⟩ := h
  have hSettings : settingsOf find request = settingsOf find' request := by
    rw [settingsOf, settingsOf]
    cases hPath : request.config with
    | none =>
        rw [hPath, Option.getD_none] at hConfig
        dsimp only
        rw [hConfig, readSettings_congr hConfig]
    | some path =>
        rw [hPath, Option.getD_some] at hConfig
        dsimp only
        rw [readSettings_congr hConfig]
  rw [run, run]
  split
  · rfl
  cases hPath : request.file with
  | none => rfl
  | some path =>
      have hHere : find path = find' path := hFile path (by simp [hPath])
      have hScan : ∀ limit,
          scanFile find request limit path = scanFile find' request limit path := by
        intro limit
        rw [scanFile, scanFile, hHere]
      dsimp only
      rw [runOn, runOn, hSettings]
      simp only [hScan]

theorem lookup_map_pair {found : Found} {path : String} (paths : List String)
    (hMem : path ∈ paths) :
    ((paths.map fun path => (path, find path)).lookup path).getD found = find path := by
  induction paths with
  | nil => cases hMem
  | cons first paths ih =>
      rw [List.map_cons, List.lookup_cons]
      by_cases hFirst : path = first
      · simp [hFirst]
      · rw [beq_eq_false_iff_ne.2 hFirst]
        exact ih ((List.mem_cons.1 hMem).resolve_left hFirst)

/-- So a request has the same outcome when the files at its paths are looked up beforehand. -/
theorem run_lookup (find : String → Found) (request : Request) :
    (run fun path => (((pathsOf request).map fun path => (path, find path)).lookup path).getD
      .missing) request = run find request :=
  run_congr fun _ hMem => lookup_map_pair _ hMem

end LookUp

def explain : Refusal → String
  | .help => help
  | .unexpectedValue => "a flag does not take a value"
  | .duplicate => "an option is repeated"
  | .missingValue => "an option has no value"
  | .badValue value fault => "invalid value " ++ Text.quote value ++ ": " ++ fault.message false
  | .unexpectedArgument => "an argument was not understood"

end HdlIndex.Command

open HdlIndex HdlIndex.Command in
/-- Runs a command line. Its files are looked up beforehand, so that the request itself is carried
out without effects. A command line that is not understood is a failure, too. -/
def main (words : List String) : IO UInt32 := do
  match Request.ofWords words with
  | .error .help => IO.println help; return 0
  | .error refusal => IO.eprintln ("error: " ++ explain refusal); return 101
  | .ok request =>
    let found ← (pathsOf request).mapM fun path => return (path, ← findFile path)
    let outcome := run (fun path => (found.lookup path).getD .missing) request
    for line in logLines .warn outcome.notes do IO.eprintln line
    IO.print outcome.output
    if let some message := outcome.message? then IO.eprintln ("error: " ++ message)
    return outcome.exitCode.toUInt32
