import GhRunner.Config.PropertyList
import GhRunner.Config.SystemdUnit

namespace GhRunner.Config

open Text Lines

/-!
# What is read back from an installed unit

* `Solid`, `map_trim_textLines` — the lines of a systemd unit, read as they were written;
* `parseSystemdTarget_unitLines`, `parseSystemdHome_unitLines` — its command line and the runner home;
* `InstalledUnit` — the units that are written, `Faithful` — what they supervise and pin is read back;
* `faithful_iff` — the units that are, and `dollars_collapse` — one that is not.
-/

/-! ### The lines of a systemd unit -/

/-- A line that reading leaves as it is. -/
def Solid (line : Str) : Prop :=
  '\n' ∉ line ∧ (∀ c ∈ line.head?, isWhitespace c = false) ∧
    ∀ c ∈ line.getLast?, isWhitespace c = false

instance decidableSolid (line : Str) : Decidable (Solid line) :=
  haveI : Decidable (∀ c ∈ line.head?, isWhitespace c = false) := Option.decidableForallMem _
  haveI : Decidable (∀ c ∈ line.getLast?, isWhitespace c = false) := Option.decidableForallMem _
  inferInstanceAs (Decidable (_ ∧ _ ∧ _))

theorem trim_of_solid {line : Str} (h : Solid line) :
    trim (if line.getLast? = some '\r' then line.dropLast else line) = line := by
  obtain ⟨-, hhead, hlast⟩ := h
  have hreturn : line.getLast? ≠ some '\r' := fun h => absurd (hlast '\r' h) (by decide)
  rw [if_neg hreturn]
  exact trim_of_ends hhead hlast

/-- The lines as they were written. -/
theorem map_trim_textLines {written : List Str} (h : ∀ line ∈ written, Solid line) :
    (textLines (written.flatMap (· ++ ['\n']))).map trim = written := by
  induction written with
  | nil => rfl
  | cons line written ih =>
    obtain ⟨hline, hwritten⟩ := List.forall_mem_cons.mp h
    rw [List.flatMap_cons, List.append_assoc, List.singleton_append, textLines,
      lines_cons_line hline.1, List.map_cons, List.map_cons, trim_of_solid hline]
    exact congrArg _ (ih hwritten)

theorem parseSystemdTarget_lines {front back : List Str} {command : Str}
    (hsolid : ∀ line ∈ front ++ ("ExecStart=".toList ++ command) :: back, Solid line)
    (hfront : ∀ line ∈ front, stripStart "ExecStart=".toList line = none) :
    parseSystemdTarget ((front ++ ("ExecStart=".toList ++ command) :: back).flatMap (· ++ ['\n'])) =
      targetFromArgs (systemdWords command) := by
  have hfind : (textLines ((front ++ ("ExecStart=".toList ++ command) :: back).flatMap
      (· ++ ['\n']))).findSome? (fun line => stripStart "ExecStart=".toList (trim line)) =
        some command := by
    show List.findSome? (stripStart "ExecStart=".toList ∘ trim) _ = _
    rw [← List.findSome?_map, map_trim_textLines hsolid, List.findSome?_append,
      List.findSome?_eq_none_iff.mpr hfront, Option.none_or, List.findSome?_cons,
      stripStart_append]
  rw [parseSystemdTarget, hfind]
  rfl

theorem parseSystemdHome_lines {front back assignments : List Str}
    (hsolid : ∀ line ∈ front ++ (assignments.map ("Environment=".toList ++ ·) ++ back), Solid line)
    (hfront : ∀ line ∈ front ++ back, stripStart "Environment=".toList line = none) :
    parseSystemdHome ((front ++ (assignments.map ("Environment=".toList ++ ·) ++ back)).flatMap
      (· ++ ['\n'])) =
      (assignments.flatMap systemdWords).findSome? (stripStart "TOOLU_RUNNER_HOME=".toList) := by
  rw [List.forall_mem_append] at hfront
  have hread : (textLines ((front ++ (assignments.map ("Environment=".toList ++ ·) ++ back)).flatMap
      (· ++ ['\n']))).filterMap (fun line => stripStart "Environment=".toList (trim line)) =
        assignments := by
    show List.filterMap (stripStart "Environment=".toList ∘ trim) _ = _
    rw [← List.filterMap_map, map_trim_textLines hsolid, List.filterMap_append,
      List.filterMap_append, List.filterMap_eq_nil_iff.mpr hfront.1,
      List.filterMap_eq_nil_iff.mpr hfront.2, List.nil_append, List.append_nil, List.filterMap_map]
    have hsome : (stripStart "Environment=".toList ∘ ("Environment=".toList ++ ·)) =
        (some : Str → Option Str) := funext fun assignment => stripStart_append _ assignment
    rw [hsome, List.filterMap_some]
  rw [parseSystemdHome, hread]

/-- A line around a value. -/
theorem solid_around {front value back : Str} (hfront : Solid front) (hne : front ≠ [])
    (hvalue : '\n' ∉ value) (hback : Solid back) (hne' : back ≠ []) :
    Solid (front ++ value ++ back) := by
  refine ⟨?_, ?_, ?_⟩
  · simp only [List.mem_append, not_or]
    exact ⟨⟨hfront.1, hvalue⟩, hback.1⟩
  · rw [List.append_assoc, List.head?_append_of_ne_nil _ hne]
    exact hfront.2.1
  · rw [List.getLast?_append_of_ne_nil _ hne']
    exact hback.2.2

theorem newline_notMem_flatMap {f : Char → Str} (hf : ∀ c, '\n' ∈ f c → c = '\n') {s : Str}
    (h : '\n' ∉ s) : '\n' ∉ s.flatMap f := by
  intro hmem
  obtain ⟨c, hc, hnewline⟩ := List.mem_flatMap.mp hmem
  exact h (hf c hnewline ▸ hc)

theorem newline_quoteChar (c : Char) (h : '\n' ∈ quoteChar c) : c = '\n' := by
  unfold quoteChar at h
  split at h
  · simpa [eq_comm] using h
  · split at h <;> simpa [eq_comm] using h

theorem newline_envChar (c : Char) (h : '\n' ∈ envChar c) : c = '\n' := by
  unfold envChar at h
  split at h
  · simpa [eq_comm] using h
  · split at h <;> simpa [eq_comm] using h

/-! ### What is pinned, and the command -/

/-- The constant parts of the lines, and how they differ where they are told apart. -/
theorem line_starts :
    Solid "[Unit]".toList ∧ Solid "[Service]".toList ∧
    Solid "Description=toolu-runner (".toList ∧ Solid ("Environment=".toList ++ ['"']) ∧
    Solid ("ExecStart=".toList ++ ['"']) ∧ Solid "--all".toList ∧
    (∀ c ∈ " run --config ".toList ++ " run --all".toList, c ≠ '\n') ∧
    stripStart "ExecStart=".toList "[Unit]".toList = none ∧
    stripStart "ExecStart=".toList "[Service]".toList = none ∧
    Apart "ExecStart=".toList "Description=toolu-runner (".toList ∧
    Apart "ExecStart=".toList "Environment=".toList ∧
    stripStart "Environment=".toList "[Unit]".toList = none ∧
    stripStart "Environment=".toList "[Service]".toList = none ∧
    Apart "Environment=".toList "Description=toolu-runner (".toList ∧
    Apart "Environment=".toList "ExecStart=".toList := by
  decide

theorem pin_keys :
    '$' ∉ "TOOLU_RUNNER_HOME".toList ++ ['='] ∧ '\n' ∉ "TOOLU_RUNNER_HOME".toList ∧
    Apart "TOOLU_RUNNER_HOME=".toList "PATH".toList ∧
    Apart "TOOLU_RUNNER_HOME=".toList "HOME".toList ∧
    "TOOLU_RUNNER_HOME=".toList = "TOOLU_RUNNER_HOME".toList ++ ['='] := by
  decide

theorem stripStart_of_apart {pat front : Str} (h : Apart pat front) (rest : Str) :
    stripStart pat (front ++ rest) = none := if_neg (apart_append h rest).1

theorem newline_systemdQuote {path : Str} (h : '\n' ∉ path) :
    '\n' ∉ path.flatMap quoteChar ++ ['"'] := by
  rw [List.mem_append, not_or]
  exact ⟨newline_notMem_flatMap newline_quoteChar h, by decide⟩

theorem solid_assignment {key value : Str} (hkey : '\n' ∉ key) (hvalue : '\n' ∉ value) :
    Solid ("Environment=".toList ++ systemdEnvAssignment key value) := by
  have hboth : '\n' ∉ (key ++ '=' :: value).flatMap envChar := by
    apply newline_notMem_flatMap newline_envChar
    simp only [List.mem_append, List.mem_cons, not_or]
    exact ⟨hkey, by decide, hvalue⟩
  have hline : "Environment=".toList ++ systemdEnvAssignment key value =
      ("Environment=".toList ++ ['"']) ++ (key ++ '=' :: value).flatMap envChar ++ ['"'] := by
    rw [systemdEnvAssignment_eq]
    simp only [List.append_assoc, List.cons_append, List.nil_append]
  rw [hline]
  exact solid_around line_starts.2.2.2.1 (by decide) hboth (by decide) (by decide)

/-- What a unit pins. -/
def pins (path : Str) (userHome runnerHome : Option Str) : List (Str × Str) :=
  ("PATH".toList, path) :: (userHome.toList.map (Prod.mk "HOME".toList) ++
    runnerHome.toList.map (Prod.mk "TOOLU_RUNNER_HOME".toList))

def assignments (path : Str) (userHome runnerHome : Option Str) : List Str :=
  (pins path userHome runnerHome).map fun pin => systemdEnvAssignment pin.1 pin.2

/-- No line break in a value that a unit pins. -/
def PinsOneLine (path : Str) (userHome runnerHome : Option Str) : Prop :=
  '\n' ∉ path ∧ (∀ home ∈ userHome, '\n' ∉ home) ∧ ∀ home ∈ runnerHome, '\n' ∉ home

instance decidablePinsOneLine (path : Str) (userHome runnerHome : Option Str) :
    Decidable (PinsOneLine path userHome runnerHome) :=
  inferInstanceAs (Decidable (_ ∧ _ ∧ _))

section Pins

variable {path : Str} {userHome runnerHome : Option Str}

theorem mem_pins {pin : Str × Str} :
    pin ∈ pins path userHome runnerHome ↔ pin = ("PATH".toList, path) ∨
      (∃ home ∈ userHome, ("HOME".toList, home) = pin) ∨
      ∃ home ∈ runnerHome, ("TOOLU_RUNNER_HOME".toList, home) = pin := by
  simp only [pins, List.mem_cons, List.mem_append, List.mem_map, Option.mem_toList, Option.mem_def]

theorem solid_assignments (h : PinsOneLine path userHome runnerHome) :
    ∀ line ∈ (assignments path userHome runnerHome).map ("Environment=".toList ++ ·),
      Solid line := by
  intro line hline
  obtain ⟨assignment, hassignment, rfl⟩ := List.mem_map.mp hline
  obtain ⟨pin, hpin, rfl⟩ := List.mem_map.mp hassignment
  rcases mem_pins.mp hpin with rfl | ⟨home, hhome, rfl⟩ | ⟨home, hhome, rfl⟩
  · exact solid_assignment (show '\n' ∉ "PATH".toList by decide) h.1
  · exact solid_assignment (show '\n' ∉ "HOME".toList by decide) (h.2.1 home hhome)
  · exact solid_assignment pin_keys.2.1 (h.2.2 home hhome)

/-- The values that are pinned, with their pairs of `$` collapsed. -/
theorem words_assignments :
    (assignments path userHome runnerHome).flatMap systemdWords =
      (pins path userHome runnerHome).map fun pin => pin.1 ++ '=' :: collapse pin.2 := by
  have hkey : ∀ pin ∈ pins path userHome runnerHome, '$' ∉ pin.1 ++ ['='] := by
    intro pin hpin
    rcases mem_pins.mp hpin with rfl | ⟨home, -, rfl⟩ | ⟨home, -, rfl⟩
    · exact (by decide : '$' ∉ "PATH".toList ++ ['='])
    · exact (by decide : '$' ∉ "HOME".toList ++ ['='])
    · exact pin_keys.1
  rw [assignments, List.flatMap_map, ← List.flatMap_singleton' (List.map _ _), List.flatMap_map]
  apply List.flatMap_congr
  intro pin hpin
  have hvalue : collapse (pin.1 ++ '=' :: pin.2) = pin.1 ++ '=' :: collapse pin.2 := by
    simpa using collapse_append (hkey pin hpin) pin.2
  rw [systemdWords_assignment, hvalue]

theorem findSome?_pins :
    ((pins path userHome runnerHome).map fun pin => pin.1 ++ '=' :: collapse pin.2).findSome?
      (stripStart "TOOLU_RUNNER_HOME=".toList) = runnerHome.map collapse := by
  obtain ⟨-, -, hpath, huser, hkey⟩ := pin_keys
  have hrunner : ∀ value, stripStart "TOOLU_RUNNER_HOME=".toList
      ("TOOLU_RUNNER_HOME".toList ++ '=' :: value) = some value := by
    intro value
    rw [← List.singleton_append, ← List.append_assoc, ← hkey, stripStart_append]
  unfold pins
  cases userHome <;> cases runnerHome <;>
    simp only [List.map_cons, List.map_nil, List.nil_append, List.cons_append,
      Option.toList_none, Option.toList_some, List.findSome?_cons, List.findSome?_nil,
      stripStart_of_apart hpath, stripStart_of_apart huser, hrunner, Option.map_some,
      Option.map_none]

/-! ### A unit, line by line -/

/-- The lines of a unit, but for the last ones. -/
def unitLines (label path : Str) (userHome runnerHome : Option Str) (command : Str)
    (back : List Str) : List Str :=
  ["[Unit]".toList, "Description=toolu-runner (".toList ++ label ++ ")".toList, [],
    "[Service]".toList] ++ ((assignments path userHome runnerHome).map ("Environment=".toList ++ ·) ++
      ("ExecStart=".toList ++ command) :: back)

variable {label command : Str} {back : List Str}

theorem solid_unitLines (hlabel : '\n' ∉ label) (hpins : PinsOneLine path userHome runnerHome)
    (hcommand : Solid ("ExecStart=".toList ++ command)) (hback : ∀ line ∈ back, Solid line) :
    ∀ line ∈ unitLines label path userHome runnerHome command back, Solid line := by
  obtain ⟨hunit, hservice, hdescription, -⟩ := line_starts
  have hlabelled : Solid ("Description=toolu-runner (".toList ++ label ++ ")".toList) :=
    solid_around hdescription (by decide) hlabel (by decide) (by decide)
  intro line hline
  rcases List.mem_append.mp hline with hfront | hrest
  · simp only [List.mem_cons, List.not_mem_nil, or_false] at hfront
    rcases hfront with rfl | rfl | rfl | rfl
    · exact hunit
    · exact hlabelled
    · decide
    · exact hservice
  · rcases List.mem_append.mp hrest with hassignment | hlast
    · exact solid_assignments hpins line hassignment
    · rcases List.mem_cons.mp hlast with rfl | hmem
      · exact hcommand
      · exact hback line hmem

/-- The lines before the command are of other kinds. -/
theorem parseSystemdTarget_unitLines
    (hsolid : ∀ line ∈ unitLines label path userHome runnerHome command back, Solid line) :
    parseSystemdTarget ((unitLines label path userHome runnerHome command back).flatMap
      (· ++ ['\n'])) = targetFromArgs (systemdWords command) := by
  obtain ⟨-, -, -, -, -, -, -, hunit, hservice, hdescription, henvironment, -⟩ := line_starts
  unfold unitLines at hsolid ⊢
  rw [← List.append_assoc] at hsolid ⊢
  refine parseSystemdTarget_lines hsolid fun line hline => ?_
  rcases List.mem_append.mp hline with hfront | hassignment
  · simp only [List.mem_cons, List.not_mem_nil, or_false] at hfront
    rcases hfront with rfl | rfl | rfl | rfl
    · exact hunit
    · rw [List.append_assoc]
      exact stripStart_of_apart hdescription _
    · decide
    · exact hservice
  · obtain ⟨assignment, -, rfl⟩ := List.mem_map.mp hassignment
    exact stripStart_of_apart henvironment _

theorem parseSystemdHome_unitLines
    (hsolid : ∀ line ∈ unitLines label path userHome runnerHome command back, Solid line)
    (hback : ∀ line ∈ back, stripStart "Environment=".toList line = none) :
    parseSystemdHome ((unitLines label path userHome runnerHome command back).flatMap
      (· ++ ['\n'])) = runnerHome.map collapse := by
  obtain ⟨-, -, -, -, -, -, -, -, -, -, -, hunit, hservice, hdescription, hcommand⟩ := line_starts
  unfold unitLines at hsolid ⊢
  rw [parseSystemdHome_lines hsolid, words_assignments]
  · exact findSome?_pins
  · intro line hline
    rcases List.mem_append.mp hline with hfront | hlast
    · simp only [List.mem_cons, List.not_mem_nil, or_false] at hfront
      rcases hfront with rfl | rfl | rfl | rfl
      · exact hunit
      · rw [List.append_assoc]
        exact stripStart_of_apart hdescription _
      · decide
      · exact hservice
    · rcases List.mem_cons.mp hlast with rfl | hmem
      · exact stripStart_of_apart hcommand _
      · exact hback line hmem

end Pins

theorem envLines_eq (path : Str) (userHome runnerHome : Option Str) :
    envLines path userHome runnerHome =
      ((assignments path userHome runnerHome).map ("Environment=".toList ++ ·)).flatMap
        (· ++ ['\n']) := by
  unfold envLines assignments pins systemdEnvLine
  cases userHome <;> cases runnerHome <;> simp

/-- The last lines of the unit of a registration. -/
def registrationBack (target : Str) : List Str :=
  ["Restart=always".toList, "RestartSec=5".toList,
    "RestartPreventExitStatus=".toList ++ sessionConflictExitCode, [], "[Install]".toList,
    "WantedBy=".toList ++ target]

def machineBack (target : Str) : List Str :=
  ["ExecReload=/bin/kill -HUP $MAINPID".toList, "Restart=always".toList, "RestartSec=5".toList, [],
    "[Install]".toList, "WantedBy=".toList ++ target]

def targets : List Str := ["default.target".toList, "multi-user.target".toList]

theorem backs_solid : ∀ target ∈ targets, ∀ line ∈ registrationBack target ++ machineBack target,
    Solid line ∧ stripStart "Environment=".toList line = none := by
  decide

theorem renderSystemdUnit_eq (spec : ServiceSpec) (target : Str)
    (userHome runnerHome : Option Str) :
    renderSystemdUnit spec target userHome runnerHome =
      (unitLines (replaceAll ['%'] "%%".toList spec.label) spec.envPath userHome runnerHome
        (systemdQuote spec.exe ++ " run --config ".toList ++ systemdQuote spec.configPath)
        (registrationBack target)).flatMap (· ++ ['\n']) := by
  unfold renderSystemdUnit unitLines registrationBack
  rw [envLines_eq]
  simp only [List.flatMap_append, List.flatMap_cons, List.flatMap_nil, List.append_assoc,
    List.append_nil, List.nil_append]

theorem renderSystemdMachineUnit_eq (spec : MachineSpec) (target : Str) (userHome : Option Str) :
    renderSystemdMachineUnit spec target userHome =
      (unitLines machineLabel spec.envPath userHome spec.home
        (systemdQuote spec.exe ++ " run --all".toList) (machineBack target)).flatMap
          (· ++ ['\n']) := by
  unfold renderSystemdMachineUnit unitLines machineBack
  rw [envLines_eq]
  simp only [List.flatMap_append, List.flatMap_cons, List.flatMap_nil, List.append_assoc,
    List.append_nil, List.nil_append]

/-! ### Installed units -/

theorem argument_names :
    "run".toList ≠ "--all".toList ∧ "--config".toList ≠ "--all".toList ∧
      "run".toList ≠ "--config".toList ∧ stripStart "--config=".toList "run".toList = none := by
  decide

/-- The arguments are looked for behind the first `run`, which may be the executable itself. -/
theorem targetFromArgs_run (exe : Str) (rest : List Str) :
    targetFromArgs (exe :: "run".toList :: rest) =
      if "--all".toList ∈ rest then some .all else configArg rest := by
  obtain ⟨hall, -, hconfig, hstrip⟩ := argument_names
  have hrest : configArg ("run".toList :: rest) = configArg rest := by
    rw [configArg, if_neg hconfig, hstrip]
  unfold targetFromArgs
  by_cases hexe : exe = "run".toList
  · have hfind : (exe :: "run".toList :: rest).findIdx? (· = "run".toList) = some 0 := by
      rw [List.findIdx?_cons, if_pos (decide_eq_true hexe)]
    rw [hfind]
    show (if "--all".toList ∈ "run".toList :: rest then some .all
      else configArg ("run".toList :: rest)) = _
    rw [hrest]
    simp only [List.mem_cons, hall.symm, false_or]
  · have hfind : (exe :: "run".toList :: rest).findIdx? (· = "run".toList) = some 1 := by
      rw [List.findIdx?_cons, if_neg (by simpa using hexe), List.findIdx?_cons,
        if_pos (decide_eq_true rfl)]
      rfl
    rw [hfind]
    rfl

theorem targetFromArgs_registration (exe configPath : Str) :
    targetFromArgs [exe, "run".toList, "--config".toList, configPath] =
      if configPath = "--all".toList then some .all else some (.config configPath) := by
  have hconfig : configArg ["--config".toList, configPath] = some (.config configPath) := by
    rw [configArg, if_pos rfl, List.head?_cons, Option.map_some]
  rw [targetFromArgs_run, hconfig]
  simp only [List.mem_cons, List.not_mem_nil, or_false, argument_names.2.1.symm, false_or,
    eq_comm (a := "--all".toList)]

/-- The arguments have no character that is escaped. -/
theorem xmlUnescape_run : xmlUnescape "run".toList = "run".toList :=
  xmlUnescape_xmlEscape "run".toList

theorem xmlUnescape_config : xmlUnescape "--config".toList = "--config".toList :=
  xmlUnescape_xmlEscape "--config".toList

theorem xmlUnescape_all : xmlUnescape "--all".toList = "--all".toList :=
  xmlUnescape_xmlEscape "--all".toList

theorem targetFromArgs_machine (exe : Str) :
    targetFromArgs [exe, "run".toList, "--all".toList] = some .all := by
  rw [targetFromArgs_run, if_pos List.mem_cons_self]

/-- No line break in what the unit of a registration is written from. -/
def RegistrationOneLine (spec : ServiceSpec) (userHome runnerHome : Option Str) : Prop :=
  '\n' ∉ spec.label ∧ '\n' ∉ spec.exe ∧ '\n' ∉ spec.configPath ∧
    PinsOneLine spec.envPath userHome runnerHome

instance decidableRegistrationOneLine (spec : ServiceSpec) (userHome runnerHome : Option Str) :
    Decidable (RegistrationOneLine spec userHome runnerHome) :=
  inferInstanceAs (Decidable (_ ∧ _ ∧ _ ∧ _))

theorem readBack_registration {spec : ServiceSpec} {target : Str}
    {userHome runnerHome : Option Str} (htarget : target ∈ targets)
    (h : RegistrationOneLine spec userHome runnerHome) :
    parseSystemdTarget (renderSystemdUnit spec target userHome runnerHome) =
        (if spec.configPath = "--all".toList then some .all else some (.config spec.configPath)) ∧
      parseSystemdHome (renderSystemdUnit spec target userHome runnerHome) =
        runnerHome.map collapse := by
  obtain ⟨hlabel, hexe, hconfig, hpins⟩ := h
  have hback := backs_solid target htarget
  have hlabel' : '\n' ∉ replaceAll ['%'] "%%".toList spec.label := by
    rw [replaceAll_singleton]
    refine newline_notMem_flatMap (fun c hc => ?_) hlabel
    split at hc
    · exact absurd hc (by decide)
    · exact (List.mem_singleton.mp hc).symm
  have hcommand : Solid ("ExecStart=".toList ++ (systemdQuote spec.exe ++
      " run --config ".toList ++ systemdQuote spec.configPath)) := by
    obtain ⟨-, -, -, -, hstart, -, hargs, -⟩ := line_starts
    have hvalue : '\n' ∉ spec.exe.flatMap quoteChar ++ ['"'] ++ (" run --config ".toList ++
        '"' :: spec.configPath.flatMap quoteChar) := by
      have hrun : '\n' ∉ " run --config ".toList := fun hmem =>
        hargs _ (List.mem_append_left _ hmem) rfl
      have hpath : '\n' ∉ spec.configPath.flatMap quoteChar :=
        newline_notMem_flatMap newline_quoteChar hconfig
      exact List.not_mem_append (newline_systemdQuote hexe) (List.not_mem_append hrun
        (List.not_mem_cons_of_ne_of_not_mem (by decide) hpath))
    have hline := solid_around hstart (by decide) hvalue (show Solid ['"'] by decide) (by decide)
    rw [systemdQuote_eq, systemdQuote_eq]
    simpa only [List.append_assoc, List.cons_append, List.nil_append] using hline
  have hsolid := solid_unitLines hlabel' hpins hcommand fun line hline =>
    (hback line (List.mem_append_left _ hline)).1
  rw [renderSystemdUnit_eq, parseSystemdTarget_unitLines hsolid, words_registration,
    targetFromArgs_registration]
  exact ⟨rfl, parseSystemdHome_unitLines hsolid fun line hline =>
    (hback line (List.mem_append_left _ hline)).2⟩

theorem readBack_machine {spec : MachineSpec} {target : Str} {userHome : Option Str}
    (htarget : target ∈ targets) (hexe : '\n' ∉ spec.exe)
    (hpins : PinsOneLine spec.envPath userHome spec.home) :
    parseSystemdTarget (renderSystemdMachineUnit spec target userHome) = some .all ∧
      parseSystemdHome (renderSystemdMachineUnit spec target userHome) =
        spec.home.map collapse := by
  have hback := backs_solid target htarget
  have hcommand : Solid ("ExecStart=".toList ++ (systemdQuote spec.exe ++ " run --all".toList)) := by
    obtain ⟨-, -, -, -, hstart, hall, -⟩ := line_starts
    have hargs : " run --all".toList = " run ".toList ++ "--all".toList := by decide
    have hvalue : '\n' ∉ spec.exe.flatMap quoteChar ++ ['"'] ++ " run ".toList := by
      have hrun : '\n' ∉ " run ".toList := by decide
      exact List.not_mem_append (newline_systemdQuote hexe) hrun
    have hline := solid_around hstart (by decide) hvalue hall (by decide)
    rw [systemdQuote_eq, hargs]
    simpa only [List.append_assoc, List.cons_append, List.nil_append] using hline
  have hsolid := solid_unitLines (show '\n' ∉ machineLabel by decide) hpins hcommand fun line hline =>
    (hback line (List.mem_append_right _ hline)).1
  rw [renderSystemdMachineUnit_eq, parseSystemdTarget_unitLines hsolid, words_machine,
    targetFromArgs_machine]
  exact ⟨rfl, parseSystemdHome_unitLines hsolid fun line hline =>
    (hback line (List.mem_append_right _ hline)).2⟩

theorem readBack_launchdPlist (spec : ServiceSpec) :
    parseLaunchdTarget (launchdPlist spec) =
        (if spec.configPath = "--all".toList then some .all else some (.config spec.configPath)) ∧
      parseLaunchdHome (launchdPlist spec) = none := by
  have hargs : ∀ arg ∈ [xmlEscape spec.exe, "run".toList, "--config".toList,
      xmlEscape spec.configPath], '<' ∉ arg := by
    simp only [List.forall_mem_cons, List.not_mem_nil, false_imp_iff, implies_true, and_true]
    exact ⟨lt_notMem_xmlEscape _, by decide, by decide, lt_notMem_xmlEscape _⟩
  constructor
  · rw [launchdPlist, parseLaunchdTarget_renderPlist (lt_notMem_xmlEscape _) hargs, List.map_cons,
      List.map_cons, List.map_cons, List.map_singleton, xmlUnescape_xmlEscape,
      xmlUnescape_xmlEscape, xmlUnescape_run, xmlUnescape_config, targetFromArgs_registration]
  · exact parseLaunchdHome_renderPlist none (lt_notMem_xmlEscape _) hargs (lt_notMem_xmlEscape _)
      (lt_notMem_xmlEscape _)

theorem readBack_launchdMachinePlist (spec : MachineSpec) :
    parseLaunchdTarget (launchdMachinePlist spec) = some .all ∧
      parseLaunchdHome (launchdMachinePlist spec) = spec.home := by
  have hargs : ∀ arg ∈ [xmlEscape spec.exe, "run".toList, "--all".toList], '<' ∉ arg := by
    simp only [List.forall_mem_cons, List.not_mem_nil, false_imp_iff, implies_true, and_true]
    exact ⟨lt_notMem_xmlEscape _, by decide, by decide⟩
  have hlabel : '<' ∉ machineLabel := by decide
  constructor
  · rw [launchdMachinePlist, parseLaunchdTarget_renderPlist hlabel hargs, List.map_cons,
      List.map_cons, List.map_singleton, xmlUnescape_xmlEscape, xmlUnescape_run, xmlUnescape_all,
      targetFromArgs_machine]
  · exact parseLaunchdHome_renderPlist spec.home hlabel hargs (lt_notMem_xmlEscape _)
      (lt_notMem_xmlEscape _)

/-- What `install-service` writes. -/
inductive InstalledUnit
  | systemdUnit (spec : ServiceSpec)
  | systemdUnitWithHome (spec : ServiceSpec) (runnerHome : Str)
  | systemdSystemUnit (spec : ServiceSpec) (userHome runnerHome : Str)
  | systemdMachineUnit (spec : MachineSpec)
  | systemdSystemMachineUnit (spec : MachineSpec) (userHome : Str)
  | launchdPlist (spec : ServiceSpec)
  | launchdMachinePlist (spec : MachineSpec)

namespace InstalledUnit

def text : InstalledUnit → Str
  | systemdUnit spec => Config.systemdUnit spec
  | systemdUnitWithHome spec runnerHome => Config.systemdUnitWithHome spec runnerHome
  | systemdSystemUnit spec userHome runnerHome =>
    Config.systemdSystemUnit spec userHome runnerHome
  | systemdMachineUnit spec => Config.systemdMachineUnit spec
  | systemdSystemMachineUnit spec userHome => Config.systemdSystemMachineUnit spec userHome
  | launchdPlist spec => Config.launchdPlist spec
  | launchdMachinePlist spec => Config.launchdMachinePlist spec

def isSystemd : InstalledUnit → Bool
  | launchdPlist _ | launchdMachinePlist _ => false
  | _ => true

def supervises : InstalledUnit → Supervises
  | systemdUnit spec | systemdUnitWithHome spec _ | systemdSystemUnit spec _ _
  | launchdPlist spec => .config spec.configPath
  | systemdMachineUnit _ | systemdSystemMachineUnit _ _ | launchdMachinePlist _ => .all

/-- The runner home that the unit pins. -/
def home : InstalledUnit → Option Str
  | systemdUnit _ | launchdPlist _ => none
  | systemdUnitWithHome _ runnerHome | systemdSystemUnit _ _ runnerHome => some runnerHome
  | systemdMachineUnit spec | systemdSystemMachineUnit spec _ | launchdMachinePlist spec =>
    spec.home

def readBack (unit : InstalledUnit) : Option Supervises × Option Str :=
  if unit.isSystemd then (parseSystemdTarget unit.text, parseSystemdHome unit.text)
  else (parseLaunchdTarget unit.text, parseLaunchdHome unit.text)

def Faithful (unit : InstalledUnit) : Prop := unit.readBack = (some unit.supervises, unit.home)

/-- No line break in a value of a systemd unit. -/
def OneLine : InstalledUnit → Prop
  | systemdUnit spec => RegistrationOneLine spec none none
  | systemdUnitWithHome spec runnerHome => RegistrationOneLine spec none (some runnerHome)
  | systemdSystemUnit spec userHome runnerHome =>
    RegistrationOneLine spec (some userHome) (some runnerHome)
  | systemdMachineUnit spec => '\n' ∉ spec.exe ∧ PinsOneLine spec.envPath none spec.home
  | systemdSystemMachineUnit spec userHome =>
    '\n' ∉ spec.exe ∧ PinsOneLine spec.envPath (some userHome) spec.home
  | launchdPlist _ | launchdMachinePlist _ => True

instance decidableOneLine : (unit : InstalledUnit) → Decidable unit.OneLine
  | systemdUnit spec => decidableRegistrationOneLine spec none none
  | systemdUnitWithHome spec runnerHome =>
    decidableRegistrationOneLine spec none (some runnerHome)
  | systemdSystemUnit spec userHome runnerHome =>
    decidableRegistrationOneLine spec (some userHome) (some runnerHome)
  | systemdMachineUnit _ | systemdSystemMachineUnit _ _ =>
    inferInstanceAs (Decidable (_ ∧ PinsOneLine _ _ _))
  | launchdPlist _ | launchdMachinePlist _ => .isTrue trivial

instance decidableFaithful (unit : InstalledUnit) : Decidable unit.Faithful :=
  inferInstanceAs (Decidable (_ = _))

/-- The values that are not read back as they were written. -/
def Ambiguous (unit : InstalledUnit) : Prop :=
  unit.supervises = .config "--all".toList ∨
    unit.isSystemd = true ∧ ∃ home ∈ unit.home, ['$', '$'] <:+: home

theorem target_eq_iff (configPath : Str) :
    (if configPath = "--all".toList then some .all else some (.config configPath)) =
      some (Supervises.config configPath) ↔ Supervises.config configPath ≠ .config "--all".toList := by
  rw [ne_eq, Supervises.config.injEq]
  split
  · rename_i hall
    exact iff_of_false (by simp) (not_not.mpr hall)
  · rename_i hall
    exact iff_of_true rfl hall

theorem home_eq_iff (home : Option Str) :
    home.map collapse = home ↔ ¬ ∃ value ∈ home, ['$', '$'] <:+: value := by
  cases home with
  | none => simp
  | some home => simp [collapse_eq_self_iff]

instance decidableAmbiguous (unit : InstalledUnit) : Decidable unit.Ambiguous :=
  inferInstanceAs (Decidable (_ ∨ _ ∧ ∃ home ∈ unit.home, _))

/-- Of a systemd unit both parts decide, of a property list the target alone. -/
theorem pair_iff {read : Option Supervises} {target : Supervises} (systemd : Bool)
    {readHome home : Option Str}
    (hread : read = some target ↔ target ≠ .config "--all".toList)
    (hhome : readHome = if systemd then home.map collapse else home) :
    (read, readHome) = (some target, home) ↔ ¬ (target = .config "--all".toList ∨
      systemd = true ∧ ∃ value ∈ home, ['$', '$'] <:+: value) := by
  rw [Prod.mk.injEq, hread, not_or, not_and, hhome]
  cases systemd with
  | true =>
    rw [if_pos rfl, home_eq_iff]
    exact and_congr_right fun _ => ⟨fun h _ => h, fun h => h rfl⟩
  | false =>
    rw [if_neg Bool.false_ne_true]
    exact and_congr_right fun _ => iff_of_true rfl nofun

/-- What a unit supervises and pins is read back unless it is ambiguous. -/
theorem faithful_iff (unit : InstalledUnit) (h : unit.OneLine) :
    unit.Faithful ↔ ¬ unit.Ambiguous := by
  have hdefault : "default.target".toList ∈ targets := List.mem_cons_self
  have hmulti : "multi-user.target".toList ∈ targets := List.mem_cons_of_mem _ List.mem_cons_self
  have hall : ∀ read, read = some Supervises.all →
      (read = some .all ↔ Supervises.all ≠ .config "--all".toList) :=
    fun _ hread => iff_of_true hread nofun
  cases unit with
  | systemdUnit spec =>
    obtain ⟨htarget, hhome⟩ := readBack_registration hdefault h
    exact pair_iff true (htarget ▸ target_eq_iff _) hhome
  | systemdUnitWithHome spec runnerHome =>
    obtain ⟨htarget, hhome⟩ := readBack_registration hdefault h
    exact pair_iff true (htarget ▸ target_eq_iff _) hhome
  | systemdSystemUnit spec userHome runnerHome =>
    obtain ⟨htarget, hhome⟩ := readBack_registration hmulti h
    exact pair_iff true (htarget ▸ target_eq_iff _) hhome
  | systemdMachineUnit spec =>
    obtain ⟨htarget, hhome⟩ := readBack_machine hdefault h.1 h.2
    exact pair_iff true (hall _ htarget) hhome
  | systemdSystemMachineUnit spec userHome =>
    obtain ⟨htarget, hhome⟩ := readBack_machine hmulti h.1 h.2
    exact pair_iff true (hall _ htarget) hhome
  | launchdPlist spec =>
    obtain ⟨htarget, hhome⟩ := readBack_launchdPlist spec
    exact pair_iff false (htarget ▸ target_eq_iff _) hhome
  | launchdMachinePlist spec =>
    obtain ⟨htarget, hhome⟩ := readBack_launchdMachinePlist spec
    exact pair_iff false (hall _ htarget) hhome

def sampleSpec : ServiceSpec where
  label := "io.toolu.runner.octo.repo".toList
  exe := "/opt/toolu-runner".toList
  configPath := "/srv/a b/config.toml".toList
  diagDir := "/srv/_diag".toList
  envPath := "/usr/bin:/bin".toList
  workDir := "/srv".toList

theorem faithful_sample :
    (systemdUnitWithHome sampleSpec "/srv/$5 \"50%\"".toList).Faithful := by
  have hunit : (systemdUnitWithHome sampleSpec "/srv/$5 \"50%\"".toList).OneLine ∧
      ¬ (systemdUnitWithHome sampleSpec "/srv/$5 \"50%\"".toList).Ambiguous := by decide
  exact (faithful_iff (systemdUnitWithHome sampleSpec "/srv/$5 \"50%\"".toList) hunit.1).mpr hunit.2

/-- A runner home with a pair of `$` comes back with one. -/
theorem dollars_collapse :
    (systemdUnitWithHome sampleSpec "/srv/$$".toList).OneLine ∧
      (systemdUnitWithHome sampleSpec "/srv/$$".toList).readBack =
        (some (.config sampleSpec.configPath), some "/srv/$".toList) ∧
      ¬ (systemdUnitWithHome sampleSpec "/srv/$$".toList).Faithful := by
  decide +kernel

end InstalledUnit

end GhRunner.Config
