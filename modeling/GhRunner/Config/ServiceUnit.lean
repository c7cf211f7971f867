import GhRunner.Lib.Markers
import GhRunner.Lib.Paths

namespace GhRunner.Config

open Text Lines

/-!
# Service units

The units that `install-service` writes and what is read back from an installed one
(`crates/config/src/service_unit.rs`).

* `xmlEscape`, `systemdQuote`, `systemdEnvAssignment` — how a value is written;
* `renderPlist`, `renderSystemdUnit`, `renderSystemdMachineUnit` — the texts;
* `systemdWords`, `xmlUnescape` — how they are taken apart;
* `parseSystemdTarget`, `parseLaunchdTarget`, `parseSystemdHome`, `parseLaunchdHome` — what a unit
  supervises, and the runner home it pins.

A path is its text, which is UTF-8.
-/

/-! ### Inputs -/

def machineLabel : Str := "sh.toolu.runner".toList

/-- Inputs for the unit of one registration. -/
structure ServiceSpec where
  label : Str
  exe : Str
  configPath : Str
  diagDir : Str
  envPath : Str
  workDir : Str
deriving DecidableEq, Repr

/-- Inputs for the machine unit. -/
structure MachineSpec where
  exe : Str
  home : Option Str
  diagDir : Str
  envPath : Str
  workDir : Str
deriving DecidableEq, Repr

/-- What an installed unit's command line supervises. -/
inductive Supervises
  | all
  | config (path : Str)
deriving DecidableEq, Repr

/-! ### launchd -/

def xmlEntity : Char → Str
  | '&' => "&amp;".toList
  | '<' => "&lt;".toList
  | '>' => "&gt;".toList
  | '"' => "&quot;".toList
  | '\'' => "&apos;".toList
  | c => [c]

def xmlEscape (s : Str) : Str := s.flatMap xmlEntity

/-- `&amp;` last. -/
def xmlUnescape (s : Str) : Str :=
  replaceAll "&amp;".toList ['&'] <| replaceAll "&apos;".toList ['\''] <|
    replaceAll "&quot;".toList ['"'] <| replaceAll "&gt;".toList ['>'] <|
      replaceAll "&lt;".toList ['<'] s

/-- A `<key>`/`<string>` pair; the value must already be escaped. -/
def stringEntry (indent key value : Str) : Str :=
  indent ++ "<key>".toList ++ key ++ "</key>".toList ++ ['\n'] ++
    indent ++ "<string>".toList ++ value ++ "</string>".toList ++ ['\n']

def argument (arg : Str) : Str :=
  "    ".toList ++ "<string>".toList ++ arg ++ "</string>".toList ++ ['\n']

def programArguments (args : List Str) : Str :=
  "  ".toList ++ "<key>ProgramArguments</key>".toList ++ ['\n'] ++
    "  ".toList ++ "<array>".toList ++ ['\n'] ++ args.flatMap argument ++
    "  ".toList ++ "</array>".toList ++ ['\n']

def environment (env : List (Str × Str)) : Str :=
  "  <key>EnvironmentVariables</key>\n".toList ++ "  <dict>\n".toList ++
    env.flatMap (fun entry => stringEntry "    ".toList entry.1 entry.2) ++ "  </dict>\n".toList

def plistHeader : Str :=
  "<?xml version=\"1.0\" encoding=\"UTF-8\"?>\n".toList ++
    "<!DOCTYPE plist PUBLIC \"-//Apple//DTD PLIST 1.0//EN\" ".toList ++
    "\"http://www.apple.com/DTDs/PropertyList-1.0.dtd\">\n".toList ++
    "<plist version=\"1.0\">\n".toList ++ "<dict>\n".toList

/-- Every text but `diagDir` must already be escaped. -/
def renderPlist (label : Str) (args : List Str) (workDir : Str) (env : List (Str × Str))
    (diagDir : Str) : Str :=
  plistHeader ++ stringEntry "  ".toList "Label".toList label ++ programArguments args ++
    stringEntry "  ".toList "WorkingDirectory".toList workDir ++ environment env ++
    "  <key>KeepAlive</key>\n".toList ++ "  <true/>\n".toList ++
    "  <key>RunAtLoad</key>\n".toList ++ "  <true/>\n".toList ++
    stringEntry "  ".toList "StandardOutPath".toList
      (xmlEscape (Paths.join diagDir "service.out.log".toList)) ++
    stringEntry "  ".toList "StandardErrorPath".toList
      (xmlEscape (Paths.join diagDir "service.err.log".toList)) ++
    "</dict>\n".toList ++ "</plist>\n".toList

def launchdPlist (spec : ServiceSpec) : Str :=
  renderPlist (xmlEscape spec.label)
    [xmlEscape spec.exe, "run".toList, "--config".toList, xmlEscape spec.configPath]
    (xmlEscape spec.workDir) [("PATH".toList, xmlEscape spec.envPath)] spec.diagDir

def launchdMachinePlist (spec : MachineSpec) : Str :=
  renderPlist machineLabel [xmlEscape spec.exe, "run".toList, "--all".toList]
    (xmlEscape spec.workDir)
    (("PATH".toList, xmlEscape spec.envPath) ::
      spec.home.toList.map fun home => ("TOOLU_RUNNER_HOME".toList, xmlEscape home))
    spec.diagDir

/-! ### systemd -/

/-- For `ExecStart`: variables and specifiers are expanded inside double quotes too. -/
def systemdQuote (path : Str) : Str :=
  let escaped := replaceAll ['%'] "%%".toList <| replaceAll ['$'] "$$".toList <|
    replaceAll ['\''] "\\'".toList <| replaceAll ['"'] "\\\"".toList <|
      replaceAll ['\\'] "\\\\".toList path
  '"' :: escaped ++ ['"']

def systemdEnvAssignment (key value : Str) : Str :=
  let escaped := replaceAll ['%'] "%%".toList <| replaceAll ['"'] "\\\"".toList <|
    replaceAll ['\\'] "\\\\".toList (key ++ '=' :: value)
  '"' :: escaped ++ ['"']

def systemdEnvLine (key value : Str) : Str :=
  "Environment=".toList ++ systemdEnvAssignment key value ++ ['\n']

def envLines (path : Str) (userHome runnerHome : Option Str) : Str :=
  systemdEnvLine "PATH".toList path ++
    (userHome.toList.flatMap (systemdEnvLine "HOME".toList) ++
      runnerHome.toList.flatMap (systemdEnvLine "TOOLU_RUNNER_HOME".toList))

/-- The exit code of a session conflict that outlasted its retries. -/
def sessionConflictExitCode : Str := "5".toList

def renderSystemdUnit (spec : ServiceSpec) (target : Str) (userHome runnerHome : Option Str) :
    Str :=
  "[Unit]".toList ++ ['\n'] ++
    "Description=toolu-runner (".toList ++ replaceAll ['%'] "%%".toList spec.label ++
    ")".toList ++ ['\n'] ++ ['\n'] ++ "[Service]".toList ++ ['\n'] ++
    envLines spec.envPath userHome runnerHome ++
    "ExecStart=".toList ++ systemdQuote spec.exe ++ " run --config ".toList ++
    systemdQuote spec.configPath ++ ['\n'] ++
    "Restart=always".toList ++ ['\n'] ++ "RestartSec=5".toList ++ ['\n'] ++
    "RestartPreventExitStatus=".toList ++ sessionConflictExitCode ++ ['\n'] ++ ['\n'] ++
    "[Install]".toList ++ ['\n'] ++ "WantedBy=".toList ++ target ++ ['\n']

def systemdUnit (spec : ServiceSpec) : Str :=
  renderSystemdUnit spec "default.target".toList none none

def systemdUnitWithHome (spec : ServiceSpec) (runnerHome : Str) : Str :=
  renderSystemdUnit spec "default.target".toList none (some runnerHome)

def systemdSystemUnit (spec : ServiceSpec) (userHome runnerHome : Str) : Str :=
  renderSystemdUnit spec "multi-user.target".toList (some userHome) (some runnerHome)

def renderSystemdMachineUnit (spec : MachineSpec) (target : Str) (userHome : Option Str) : Str :=
  "[Unit]".toList ++ ['\n'] ++
    "Description=toolu-runner (".toList ++ machineLabel ++ ")".toList ++ ['\n'] ++ ['\n'] ++
    "[Service]".toList ++ ['\n'] ++ envLines spec.envPath userHome spec.home ++
    "ExecStart=".toList ++ systemdQuote spec.exe ++ " run --all".toList ++ ['\n'] ++
    "ExecReload=/bin/kill -HUP $MAINPID".toList ++ ['\n'] ++
    "Restart=always".toList ++ ['\n'] ++ "RestartSec=5".toList ++ ['\n'] ++ ['\n'] ++
    "[Install]".toList ++ ['\n'] ++ "WantedBy=".toList ++ target ++ ['\n']

def systemdMachineUnit (spec : MachineSpec) : Str :=
  renderSystemdMachineUnit spec "default.target".toList none

def systemdSystemMachineUnit (spec : MachineSpec) (userHome : Str) : Str :=
  renderSystemdMachineUnit spec "multi-user.target".toList (some userHome)

/-! ### Reading a unit -/

/-- A systemd command line from a place inside of it: the word so far, whether there is one, and
    whether a quote is open. -/
def systemdWordsFrom : Str → Str → Bool → Bool → List Str
  | [], word, inWord, _ => if inWord then [word] else []
  | c :: rest, word, inWord, quoted =>
    if c = '"' then systemdWordsFrom rest word true !quoted
    else if c = '\\' then
      match rest with
      | [] => [word]
      | next :: rest => systemdWordsFrom rest (word ++ [next]) true quoted
    else
      match rest with
      | [] =>
        if isWhitespace c && !quoted then if inWord then [word] else []
        else [word ++ [c]]
      | next :: after =>
        if (c = '$' ∨ c = '%') ∧ next = c then systemdWordsFrom after (word ++ [c]) true quoted
        else if isWhitespace c && !quoted then
          if inWord then word :: systemdWordsFrom (next :: after) [] false quoted
          else systemdWordsFrom (next :: after) word false quoted
        else systemdWordsFrom (next :: after) (word ++ [c]) true quoted

def systemdWords (line : Str) : List Str := systemdWordsFrom line [] false false

def configArg : List Str → Option Supervises
  | [] => none
  | arg :: rest =>
    if arg = "--config".toList then rest.head?.map .config
    else
      match stripStart "--config=".toList arg with
      | some path => some (.config path)
      | none => configArg rest

/-- `run --all`, or `run --config` with a path. -/
def targetFromArgs (args : List Str) : Option Supervises := do
  let run ← args.findIdx? (· = "run".toList)
  let rest := args.drop (run + 1)
  if "--all".toList ∈ rest then some .all else configArg rest

/-- `str::lines`. -/
def textLines (text : Str) : List Str :=
  (lines '\n' text).map fun line =>
    if line.1.getLast? = some '\r' then line.1.dropLast else line.1

def parseSystemdTarget (unit : Str) : Option Supervises := do
  let exec ← (textLines unit).findSome? fun line => stripStart "ExecStart=".toList (trim line)
  targetFromArgs (systemdWords exec)

def parseSystemdHome (unit : Str) : Option Str :=
  ((textLines unit).filterMap fun line => stripStart "Environment=".toList (trim line)).flatMap
    systemdWords |>.findSome? (stripStart "TOOLU_RUNNER_HOME=".toList)

def parseLaunchdTarget (plist : Str) : Option Supervises := do
  let (_, after) ← splitFirst "<key>ProgramArguments</key>".toList plist
  let (_, array) ← splitFirst "<array>".toList after
  let (array, _) ← splitFirst "</array>".toList array
  let args := ((splitAll "<string>".toList array).drop 1).filterMap fun chunk =>
    (splitFirst "</string>".toList chunk).map fun parts => xmlUnescape parts.1
  targetFromArgs args

def parseLaunchdHome (plist : Str) : Option Str := do
  let (_, after) ← splitFirst "<key>TOOLU_RUNNER_HOME</key>".toList plist
  let (_, value) ← splitFirst "<string>".toList after
  let (value, _) ← splitFirst "</string>".toList value
  some (xmlUnescape value)

end GhRunner.Config
