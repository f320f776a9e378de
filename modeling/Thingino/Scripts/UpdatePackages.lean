import Mathlib.Data.List.Sort
import Thingino.Lib.Trail
import Thingino.Scripts.RenderTemplate

/-! `update_packages.py`: packages that are taken from git, brought up to date one by one.

The script takes the developer's changes out of the way with `git stash push` and puts them back at its end.
Whatever it does outside itself is an action that is answered from outside: a value, or a `Raise`, since a
command may fail to start and Ctrl-C may come at any moment. Every action is kept in the trail of the state,
with the stashes that the repository had before and after it. -/
namespace Thingino.Scripts.UpdatePackages
open Lib

/-! ### What the script asks for -/

/-- The names on the way from the project's directory. -/
abbrev Path := List String

namespace Path

def name (p : Path) : String := p.getLast?.getD ""

/-- `p.parent.name`. -/
def parentName (p : Path) : String := name p.dropLast

def str (p : Path) : String := "/".intercalate p

/-- The order of `sorted`: by the names, and these by their characters. -/
def le (p q : Path) : Bool :=
  let codes : Path → List (List Nat) := List.map fun part => part.toList.map Char.toNat
  !(codes q).lex (codes p) fun a b => a.lex b fun x y => x < y

/-- `p.with_suffix(p.suffix + ".backup")`. -/
def backup (p : Path) : Path := p.dropLast ++ [name p ++ ".backup"]

end Path

inductive Raise
  | keyboardInterrupt
  | exception (message : String)

/-- The commands of git in the project's directory. -/
inductive Git
  /-- `diff --cached --quiet` -/
  | diffCached
  /-- `diff --quiet` -/
  | diff
  /-- `ls-files --others --exclude-standard` -/
  | lsFiles
  /-- `stash push -u -m MESSAGE` -/
  | stashPush (message : String)
  /-- `stash list --format=%H %gd -n 1` -/
  | stashTop
  /-- `stash list --format=%H` -/
  | stashList
  /-- `stash pop REF` -/
  | stashPop (ref : String)
  | add (path : Path)
  /-- `commit -m MESSAGE` -/
  | commit (message : String)
  /-- `reset HEAD PATH` -/
  | reset (path : Path)
  deriving DecidableEq

/-- What `run_git` returns: 124 and 127 are its own codes for a command that takes too long or is not there. -/
structure Ran where
  code : Int
  out : String
  err : String

/-- What `parse_mk_file` finds in a package that comes from git at a fixed commit. -/
structure Parsed where
  packageName : String
  repoUrl : String
  branch : String
  versionHash : String

inductive Action
  | parseArgs
  /-- A line to the standard error. -/
  | eprint (line : String)
  | print (line : String)
  | flush
  /-- `PACKAGE_DIR.is_dir()` -/
  | isDir
  /-- `PACKAGE_DIR.rglob('*.mk')` -/
  | rglob
  /-- `date '+%Y-%m-%d %H:%M:%S'` -/
  | date
  | git (command : Git)
  | parseMkFile (mk : Path)
  | getRemoteHash (repoUrl branch : String)
  | getCommitLog (repoUrl oldHash newHash branch : String)
  | promptYesNo (packageName oldHash newHash : String)
  | readText (path : Path)
  | writeText (path : Path) (text : String)
  deriving DecidableEq

/-- The answer to an action that does not raise. -/
abbrev Action.Reply : Action → Type
  | .isDir => Bool
  | .rglob => List Path
  | .date => String
  | .git _ => Ran
  | .parseMkFile _ => Option Parsed
  | .getRemoteHash _ _ => Option String
  | .getCommitLog _ _ _ _ => List String
  | .promptYesNo _ _ _ => Bool
  | .readText _ => String
  | _ => Unit

/-- An action with its answer, the stashes around it, newest first, and whether it belongs to the handling of
an interruption. -/
structure Event where
  action : Action
  answer : Except Raise action.Reply
  before : List String
  after : List String
  handling : Bool

/-- Everything outside, by the number of the step: the answers, the commit of the stash that a `stash push`
saves and whether a `stash pop` drops one, each whatever the command answers. -/
structure Outside where
  projectRoot : String
  answer : Nat → (a : Action) → Except Raise a.Reply
  saved : Nat → Option String
  popped : Nat → Bool

/-- `stash@{i}` -/
def stashName (i : Nat) : String := "stash@\x7b" ++ toString i ++ "\x7d"

/-- The place of a stash in the list. -/
def place (stashes : List String) (ref : String) : Option Nat :=
  (List.range stashes.length).find? fun i => ref = stashName i

/-- The commit of a stash. -/
def resolve (stashes : List String) (ref : String) : Option String :=
  (place stashes ref).bind fun i => stashes[i]?

/-- The stashes after the step `n`. -/
def Outside.stashes (o : Outside) (n : Nat) (a : Action) (stashes : List String) : List String :=
  match a with
  | .git (.stashPush _) => (o.saved n).toList ++ stashes
  | .git (.stashPop ref) =>
    if o.popped n then ((place stashes ref).map stashes.eraseIdx).getD stashes else stashes
  | _ => stashes

/-! ### The state of the script -/

structure State where
  logLevel : Nat
  dryRun : Bool
  stashRef : Option String
  stashSha : Option String
  totalPackagesScanned : Nat
  packagesWithUpdates : Nat
  packagesUpdated : Nat
  updatedPackages : List String
  /-- The stashes of the repository. -/
  stashes : List String
  handling : Bool
  trail : List Event

/-- The state at the start, over a repository with some stashes. -/
def State.start (stashes : List String) : State :=
  { logLevel := 20, dryRun := false, stashRef := none, stashSha := none, totalPackagesScanned := 0,
    packagesWithUpdates := 0, packagesUpdated := 0, updatedPackages := [], stashes, handling := false, trail := [] }

abbrev Script := EStateM Raise State

section Script
variable (o : Outside)

/-- What the trail says of `a`. -/
def Outside.event (o : Outside) (a : Action) (s : State) : Event :=
  ⟨a, o.answer s.trail.length a, s.stashes, o.stashes s.trail.length a s.stashes, s.handling⟩

/-- The state once `a` is over. -/
def Outside.record (o : Outside) (a : Action) (s : State) : State :=
  { s with
    stashes := o.stashes s.trail.length a s.stashes
    trail := s.trail ++ [o.event a s] }

def act (a : Action) : Script a.Reply := fun s =>
  match o.answer s.trail.length a with
  | .ok r => .ok r (o.record a s)
  | .error e => .error e (o.record a s)

/-! ### Messages -/

def BLUE : String := "\x1b[0;34m"
def YELLOW : String := "\x1b[1;33m"
def RED : String := "\x1b[0;31m"
def GREEN : String := "\x1b[0;32m"
def NC : String := "\x1b[0m"

def logDebug (msg : String) : Script Unit := do
  if (← get).logLevel ≤ 10 then act o (.eprint (BLUE ++ "[DEBUG]" ++ NC ++ " " ++ msg)) else pure ()

def logInfo (msg : String) : Script Unit := do
  if (← get).logLevel ≤ 20 then act o (.eprint (BLUE ++ "[INFO]" ++ NC ++ " " ++ msg)) else pure ()

def logWarn (msg : String) : Script Unit := act o (.eprint (YELLOW ++ "[WARN]" ++ NC ++ " " ++ msg))

def logError (msg : String) : Script Unit := act o (.eprint (RED ++ "[ERROR]" ++ NC ++ " " ++ msg))

def logSuccess (msg : String) : Script Unit := act o (.eprint (GREEN ++ "[SUCCESS]" ++ NC ++ " " ++ msg))

end Script

/-! ### Texts -/

def getShortHash (h : String) : String := String.ofList (h.toList.take 7)

def hashesMatch (lhs rhs : String) : Bool :=
  lhs = rhs || rhs.toList.isPrefixOf lhs.toList || lhs.toList.isPrefixOf rhs.toList

def stripped (s : String) : String := String.ofList (strip s.toList)

/-- `splitlines()`. -/
def linesOf (s : String) : List String :=
  (splitlines s.toList).map fun line => String.ofList (line.rdropWhile isLineBreak)

/-- `split(maxsplit=1)` of a stripped text into two parts; anything else is a `ValueError`. -/
def splitOnce (s : String) : Option (String × String) :=
  let sha := s.toList.takeWhile (!isSpace ·)
  let ref := (s.toList.drop sha.length).dropWhile isSpace
  if sha = [] ∨ ref = [] then none else some (String.ofList sha, String.ofList ref)

/-- `out` and `err`, for a diagnosis. -/
def details (r : Ran) : String := stripped (r.out ++ (if r.out ≠ "" ∧ r.err ≠ "" then "\n" else "") ++ r.err)

/-- A part of a pattern of `fnmatch`. -/
inductive Token
  | any
  | one
  | set (seq : List Char)
  | lit (c : Char)

/-- What is between the brackets, and what is after them. -/
def brackets (p : List Char) : Option (List Char × List Char) :=
  let k := if p.head? = some '!' then 1 else 0
  let k := if (p.drop k).head? = some ']' then k + 1 else k
  let n := k + ((p.drop k).takeWhile (· ≠ ']')).length
  if n < p.length then some (p.take n, p.drop (n + 1)) else none

/-- `n` is enough when it is the length of the pattern. -/
def translate : Nat → List Char → List Token
  | 0, _ => []
  | _, [] => []
  | n + 1, '*' :: p => .any :: translate n p
  | n + 1, '?' :: p => .one :: translate n p
  | n + 1, '[' :: p =>
    match brackets p with
    | some (seq, p) => .set seq :: translate n p
    | none => .lit '[' :: translate n p
  | n + 1, c :: p => .lit c :: translate n p

def inRanges (c : Char) : List Char → Bool
  | lo :: '-' :: hi :: seq => lo ≤ c && c ≤ hi || inRanges c seq
  | x :: seq => x = c || inRanges c seq
  | [] => false

def Token.accepts (c : Char) : Token → Bool
  | .any | .one => true
  | .set ('!' :: seq) => !inRanges c seq
  | .set seq => inRanges c seq
  | .lit x => x = c

def matchTokens : List Token → List Char → Bool
  | [], s => s.isEmpty
  | .any :: ts, s => s.tails.any (matchTokens ts)
  | _ :: _, [] => false
  | t :: ts, c :: s => t.accepts c && matchTokens ts s

def fnmatch (name pat : String) : Bool := matchTokens (translate pat.length pat.toList) name.toList

/-- `_VERSION\s*=\s*`, the old hash and `\s*(#.*)?$` from here on, with the new hash in its place. -/
def matchVersion (pkgUpper oldHash newHash : String) (s : Text) : Option Text :=
  let key := pkgUpper.toList ++ "_VERSION".toList
  if key.isPrefixOf s then
    let s₁ := s.drop key.length
    let ws₁ := s₁.takeWhile isSpace
    match s₁.drop ws₁.length with
    | '=' :: s₂ =>
      let ws₂ := s₂.takeWhile isSpace
      let s₃ := s₂.drop ws₂.length
      let rest := s₃.drop oldHash.length
      let ws₃ := rest.takeWhile isSpace
      let next := (rest.drop ws₃.length).head?
      if oldHash.toList.isPrefixOf s₃ ∧ (next = none ∨ next = some '#' ∨ ws₃.contains '\n') then
        some (key ++ ws₁ ++ '=' :: ws₂ ++ newHash.toList ++ rest)
      else none
    | _ => none
  else none

/-- The first place at the beginning of a line where `f` finds something to replace; `bol`: a line begins here. -/
def subn (f : Text → Option Text) : Bool → Text → Option Text
  | bol, [] => if bol then f [] else none
  | bol, c :: s => ((if bol then f (c :: s) else none).or ((subn f (c = '\n') s).map (c :: ·)))

/-- `package_name.upper().replace('-', '_')`, of a name in ASCII. -/
def pkgUpper (packageName : String) : String :=
  String.ofList (packageName.toList.map fun c => if c = '-' then '_' else c.toUpper)

/-! ### The developer's changes -/

section Script
variable (o : Outside)

def git (command : Git) : Script Ran := act o (.git command)

/-- `os.path.join(PROJECT_ROOT, p)` -/
def Outside.path (o : Outside) (p : Path) : String := o.projectRoot ++ "/" ++ Path.str p

/-- Whether there are no uncommitted changes. -/
def checkGitWorkingDirectory : Script Bool := do
  logDebug o "Checking Git working directory status"
  let r ← git o .diffCached
  if r.code ≠ 0 then
    logDebug o "Found staged changes in working directory"
    pure false
  else
    let r ← git o .diff
    if r.code ≠ 0 then
      logDebug o "Found unstaged changes in working directory"
      pure false
    else
      let r ← git o .lsFiles
      if r.code = 0 ∧ stripped r.out ≠ "" then
        logDebug o "Found untracked files in working directory"
        pure false
      else
        logDebug o "Git working directory is clean"
        pure true

/-- What follows a `stash push` that has answered 0. -/
def recordStash : Script (Option String) := do
  let r ← git o .stashTop
  if r.code ≠ 0 ∨ stripped r.out = "" then
    logError o "Failed to get stash reference"
    pure none
  else
    match splitOnce (stripped r.out) with
    | none =>
      logError o "Unexpected format when reading stash reference"
      pure none
    | some (sha, ref) =>
      modify fun s => { s with stashSha := some sha, stashRef := some ref }
      logSuccess o ("Successfully stashed changes with reference: " ++ ref)
      pure (some ref)

def stashUncommittedChanges : Script (Option String) := do
  if ← checkGitWorkingDirectory o then
    logDebug o "No uncommitted changes to stash"
    pure none
  else
    logInfo o "Stashing uncommitted changes to ensure clean working directory"
    let date ← act o .date
    let r ← git o (.stashPush ("check-git-package-updates.py auto-stash at " ++ stripped date))
    if r.code ≠ 0 then
      logError o ("Failed to stash uncommitted changes: " ++ r.err)
      pure none
    else
      recordStash o

/-- Whether the stash is listed still. -/
def stillExists : Script Bool := do
  match (← get).stashSha with
  | none => pure false
  | some sha =>
    if sha = "" then
      pure false
    else
      let ls ← git o .stashList
      pure (ls.code = 0 && (linesOf ls.out).contains sha)

def forgetStash : Script Unit := modify fun s => { s with stashRef := none, stashSha := none }

/-- What is made of the answer to `git stash pop`. -/
def finishPop (ref : String) (r : Ran) : Script Bool := do
  let still ← stillExists o
  if r.code ≠ 0 ∧ still = true then
    logError o ("Failed to restore stashed changes: " ++ details r)
    logWarn o ("You may need to manually restore stash " ++ ref)
    pure false
  else
    if r.code ≠ 0 ∧ details r ≠ "" then
      logWarn o ("Stash restored with warnings: " ++ details r)
    else
      pure ()
    logSuccess o "Successfully restored stashed changes"
    forgetStash
    pure true

def popStash (ref : String) : Script Bool := do
  logInfo o "Restoring previously stashed changes"
  let r ← git o (.stashPop ref)
  finishPop o ref r

/-- `STASH_REF`, when it is there and not empty. -/
def State.heldStash (s : State) : Option String := s.stashRef.filter (· ≠ "")

def restoreStashedChanges : Script Bool := do
  match (← get).heldStash with
  | none =>
    logDebug o "No stashed changes to restore"
    pure true
  | some ref => popStash o ref

/-! ### One package -/

def commitMessage (packageName oldHash newHash : String) (commitLog : List String) : String :=
  let oldShort := getShortHash oldHash
  let newShort := getShortHash newHash
  let log :=
    if commitLog = [] then ["(No changelog available)"]
    else "Changelog:" :: "" :: commitLog.map ("  " ++ ·)
  "\n".intercalate (
    ["package/" ++ packageName ++ ": update to " ++ newShort, "",
      "Update " ++ packageName ++ " from " ++ oldShort ++ " to " ++ newShort, "",
      "Hash change: " ++ oldHash ++ " -> " ++ newHash, ""] ++ log)

def createPackageCommit (packageName : String) (mk : Path) (oldHash newHash : String) (commitLog : List String) :
    Script Bool := do
  logDebug o ("Creating Git commit for package " ++ packageName)
  let r ← git o (.add mk)
  if r.code ≠ 0 then
    logError o ("Failed to stage " ++ Path.str mk ++ ": " ++ r.err)
    pure false
  else
    let r ← git o (.commit (commitMessage packageName oldHash newHash commitLog))
    if r.code ≠ 0 then
      logError o ("Failed to create commit for " ++ packageName ++ ": " ++ r.err)
      let _ ← git o (.reset mk)
      pure false
    else
      logSuccess o ("Created commit for " ++ packageName ++ ": package/" ++ packageName ++ ": update to " ++
        getShortHash newHash)
      pure true

/-- `except Exception`; an interruption from the keyboard goes on. -/
def exceptException {α : Type} (m : Script α) (f : String → Script α) : Script α :=
  tryCatch m fun
    | .exception e => f e
    | .keyboardInterrupt => throw .keyboardInterrupt

/-- The backup and then the file itself; a write that fails is made good with the old text. -/
def writeUpdate (mk : Path) (text newText newHash : String) : Script Bool :=
  exceptException
    (do
      act o (.writeText (Path.backup mk) text)
      act o (.writeText mk newText)
      logSuccess o ("Updated " ++ o.path mk ++ " with new hash: " ++ newHash)
      pure true)
    fun e => do
      logError o ("Failed to write update to " ++ o.path mk ++ ": " ++ e)
      exceptException (act o (.writeText mk text)) fun _ => pure ()
      pure false

def updatePackageMk (mk : Path) (packageName oldHash newHash : String) : Script Bool := do
  let text ← exceptException (some <$> act o (.readText mk)) fun e => do
    logError o ("Failed to read " ++ o.path mk ++ ": " ++ e)
    pure none
  match text with
  | none => pure false
  | some text =>
    match subn (matchVersion (pkgUpper packageName) oldHash newHash) true text.toList with
    | none =>
      logError o ("Did not find a VERSION line with the old hash in " ++ o.path mk)
      pure false
    | some newText => writeUpdate o mk text (String.ofList newText) newHash

def printUpdate (p : Parsed) (remoteHash : String) : Script Unit := do
  act o (.print p.packageName)
  act o (.print "---------------")
  act o (.print p.repoUrl)
  act o (.print ("- " ++ p.versionHash))
  act o (.print ("+ " ++ remoteHash))

def printLog (logLines : List String) : Script Unit := do
  if logLines = [] then act o (.print "* (Failed to retrieve commit log)")
  else logLines.forM fun line => act o (.print ("* " ++ line))
  act o (.print "")
  act o .flush

/-- The update of a package that is wanted. -/
def updateAndCommit (mk : Path) (p : Parsed) (remoteHash : String) (logLines : List String) : Script Unit := do
  if ← updatePackageMk o mk p.packageName p.versionHash remoteHash then
    if ← createPackageCommit o p.packageName mk p.versionHash remoteHash logLines then
      modify fun s => { s with
        packagesUpdated := s.packagesUpdated + 1
        updatedPackages := s.updatedPackages ++
          [p.packageName ++ ":" ++ getShortHash p.versionHash ++ "->" ++ getShortHash remoteHash] }
      logDebug o ("Package " ++ p.packageName ++ " updated successfully")
    else
      logError o ("Failed to create commit for package " ++ p.packageName)
  else
    logError o ("Failed to update package " ++ p.packageName)

/-- A package whose remote hash is another one. -/
def offerUpdate (mk : Path) (p : Parsed) (remoteHash : String) : Script Unit := do
  modify fun s => { s with packagesWithUpdates := s.packagesWithUpdates + 1 }
  logDebug o ("Update available for " ++ p.packageName)
  printUpdate o p remoteHash
  let logLines ← act o (.getCommitLog p.repoUrl p.versionHash remoteHash p.branch)
  printLog o logLines
  if (← get).dryRun then
    logDebug o ("Dry-run: skipping update for package " ++ p.packageName)
  else
    if ← act o (.promptYesNo p.packageName p.versionHash remoteHash) then
      updateAndCommit o mk p remoteHash logLines
    else
      logDebug o ("Skipping update for package " ++ p.packageName)

def printUpToDate (p : Parsed) : Script Unit := do
  act o (.print p.packageName)
  act o (.print "---------------")
  act o (.print p.repoUrl)
  act o (.print ("= " ++ p.versionHash ++ " (up to date)"))
  act o (.print "")
  logDebug o ("Package " ++ p.packageName ++ " is up to date")

def checkPackage (mk : Path) (p : Parsed) : Script Unit := do
  logInfo o ("Processing package: " ++ p.packageName)
  logDebug o ("  Repository: " ++ p.repoUrl)
  logDebug o ("  Branch: " ++ p.branch)
  logDebug o ("  Current hash: " ++ p.versionHash)
  match ← act o (.getRemoteHash p.repoUrl p.branch) with
  | none => logError o ("Failed to get remote hash for " ++ p.packageName)
  | some remoteHash =>
    logDebug o ("  Remote hash: " ++ remoteHash)
    if hashesMatch p.versionHash remoteHash then printUpToDate o p else offerUpdate o mk p remoteHash

def processPackage (mk : Path) : Script Unit := do
  match ← act o (.parseMkFile mk) with
  | none => pure ()
  | some p => checkPackage o mk p

/-! ### The run -/

/-- What the command line comes to. -/
structure Args where
  patterns : List String
  debug : Bool
  dryRun : Bool

/-- The file of a package has the name of its directory. -/
def isPackageMk (mk : Path) : Bool := Path.name mk = Path.parentName mk ++ ".mk"

/-- The packages that a run with these patterns is about. -/
def selected (patterns : List String) (found : List Path) : List Path :=
  let mks := found.filter isPackageMk
  if patterns = [] then mks else mks.filter fun mk => patterns.any (fnmatch (Path.parentName mk))

def printSummary : Script Unit := do
  let s ← get
  act o (.eprint "")
  act o (.eprint (BLUE ++ "=== SUMMARY REPORT ===" ++ NC))
  act o (.eprint (BLUE ++ "Total packages scanned:" ++ NC ++ " " ++ toString s.totalPackagesScanned))
  act o (.eprint (BLUE ++ "Packages with updates available:" ++ NC ++ " " ++ toString s.packagesWithUpdates))
  act o (.eprint (BLUE ++ "Packages actually updated:" ++ NC ++ " " ++ toString s.packagesUpdated))
  if s.updatedPackages ≠ [] then
    act o (.eprint "")
    act o (.eprint (GREEN ++ "Updated packages:" ++ NC))
    s.updatedPackages.forM fun u => act o (.eprint ("  " ++ GREEN ++ "✓" ++ NC ++ " " ++ u))
  else
    pure ()
  act o (.eprint "")

def logResult : Script Unit := do
  let s ← get
  if s.packagesWithUpdates = 0 then
    logInfo o "All Git packages are up to date."
  else
    logInfo o ("Scan complete. Found " ++ toString s.packagesWithUpdates ++ " package(s) with updates available.")
    if 0 < s.packagesUpdated then
      logSuccess o ("Successfully updated " ++ toString s.packagesUpdated ++ " package(s).")
    else
      pure ()

def examine (mk : Path) : Script Unit := do
  logDebug o ("Examining package: " ++ Path.parentName mk)
  modify fun s => { s with totalPackagesScanned := s.totalPackagesScanned + 1 }
  processPackage o mk

/-- All packages, the report, and the changes back. -/
def scan (mks : List Path) : Script Int := do
  (mks.insertionSort fun p q => Path.le p q = true).forM (examine o)
  printSummary o
  logResult o
  if (← get).dryRun then
    pure 0
  else
    if ← restoreStashedChanges o then
      pure 0
    else
      logWarn o "Failed to restore stashed changes - please check manually"
      pure 1

/-- `main` from the search for packages on. -/
def findAndScan (patterns : List String) : Script Int := do
  let found ← act o .rglob
  if patterns ≠ [] ∧ selected patterns found = [] then
    logError o ("No packages matched patterns: " ++ " ".intercalate patterns)
    pure 1
  else
    scan o (selected patterns found)

/-- `main` up to the stash, and whether it goes on. -/
def prepare (args : Args) : Script Bool := do
  act o .parseArgs
  modify fun s => { s with logLevel := if args.debug then 10 else s.logLevel, dryRun := args.dryRun }
  logInfo o "Starting Git package hash update check"
  logInfo o (if args.patterns = [] then "Scanning packages in: " ++ o.path ["package"]
    else "Processing packages matching: " ++ " ".intercalate args.patterns)
  if ← act o .isDir then
    pure true
  else
    logError o ("Package directory not found: " ++ o.path ["package"])
    pure false

def main (args : Args) : Script Int := do
  if ← prepare o args then
    if (← get).dryRun then
      findAndScan o args.patterns
    else
      let _ ← stashUncommittedChanges o
      findAndScan o args.patterns
  else
    pure 1

/-- Either handler: the changes back, when there are some to be put back. -/
def rescue : Script Unit := do
  let s ← get
  if s.dryRun = false ∧ s.heldStash ≠ none then
    logInfo o "Attempting to restore stashed changes before exit..."
    let _ ← restoreStashedChanges o
  else
    pure ()

def handle (e : Raise) : Script Int := do
  modify fun s => { s with handling := true }
  match e with
  | .keyboardInterrupt =>
    act o (.eprint "")
    logWarn o "Interrupted by user"
    rescue o
    pure 130
  | .exception e =>
    logError o ("Unexpected error: " ++ e)
    rescue o
    pure 1

/-- The process, with a command line that `argparse` takes or one with which it exits on its own. -/
def script (args : Except Int Args) : Script Int :=
  match args with
  | .ok args => tryCatch (main o args) (handle o)
  | .error code => tryCatch (do act o .parseArgs; pure code) (handle o)

/-- The trail of a whole run over a repository with some stashes. -/
def run (args : Except Int Args) (stashes : List String) : List Event :=
  (finalState (script o args (State.start stashes))).trail

end Script

end Thingino.Scripts.UpdatePackages
