import GhRunner.Config.ServiceUnit

namespace GhRunner.Config

open Text Lines

/-!
# What is read back from a property list

* `xmlUnescape_xmlEscape` — the entities are undone, whatever the value;
* `TagsClear pat` — the marker `pat` begins nowhere but where it was written, since an escaped value
  has no tag;
* `parseLaunchdTarget_renderPlist`, `parseLaunchdHome_renderPlist` — the arguments and the runner
  home, read back.
-/

/-! ### Entities -/

def specials : List Char := ['&', '<', '>', '"', '\'']

theorem xmlEntity_of_notMem {c : Char} (h : c ∉ specials) : xmlEntity c = [c] := by
  unfold xmlEntity
  split <;> first | rfl | exact absurd (by decide) h

/-- With the entities of some characters undone. -/
def partly (undone : List Char) (c : Char) : Str := if c ∈ undone then [c] else xmlEntity c

/-- An entity starts with `&` and has no `<`, and no other one begins in it. -/
theorem entities_apart : ∀ x ∈ specials, (xmlEntity x).head? = some '&' ∧ '<' ∉ xmlEntity x ∧
    ∀ c ∈ specials, c ≠ x → Clear (xmlEntity x) (xmlEntity c) := by decide

theorem replaceAll_partly {undone : List Char} {x : Char} (hx : x ∈ specials)
    (hamp : '&' ∉ undone) (hnew : x ∉ undone) (s : Str) :
    replaceAll (xmlEntity x) [x] (s.flatMap (partly undone)) = s.flatMap (partly (x :: undone)) := by
  obtain ⟨hhead, -, hclear⟩ := entities_apart x hx
  apply replaceAll_flatMap (List.ne_nil_of_mem (List.mem_of_mem_head? hhead))
  intro c _
  by_cases hcx : c = x
  · subst hcx
    exact .inr ⟨if_neg hnew, if_pos List.mem_cons_self⟩
  · have hsame : partly (x :: undone) c = partly undone c := by
      simp only [partly, List.mem_cons, or_iff_right hcx]
    refine .inl ⟨?_, hsame⟩
    unfold partly
    split
    · rename_i hundone
      apply clear_of_head hhead
      rw [List.mem_singleton]
      rintro rfl
      exact hamp hundone
    · by_cases hc : c ∈ specials
      · exact hclear c hc hcx
      · rw [xmlEntity_of_notMem hc]
        apply clear_of_head hhead
        rw [List.mem_singleton]
        rintro rfl
        exact hc (by decide)

theorem xmlUnescape_xmlEscape (s : Str) : xmlUnescape (xmlEscape s) = s := by
  have hall : s.flatMap (partly ['&', '\'', '"', '>', '<']) = s := by
    rw [← List.flatMap_singleton' s, List.flatMap_assoc]
    apply List.flatMap_congr
    intro c _
    rw [List.flatMap_singleton]
    unfold partly
    split
    · rfl
    · rename_i hc
      apply xmlEntity_of_notMem
      simp [specials] at hc ⊢
      tauto
  show replaceAll (xmlEntity '&') ['&'] (replaceAll (xmlEntity '\'') ['\'']
    (replaceAll (xmlEntity '"') ['"'] (replaceAll (xmlEntity '>') ['>']
      (replaceAll (xmlEntity '<') ['<'] (s.flatMap (partly [])))))) = s
  rw [replaceAll_partly (by decide) (by decide) (by decide),
    replaceAll_partly (by decide) (by decide) (by decide),
    replaceAll_partly (by decide) (by decide) (by decide),
    replaceAll_partly (by decide) (by decide) (by decide),
    replaceAll_partly (by decide) (by decide) (by decide), hall]

/-- An escaped text has no tag in it. -/
theorem lt_notMem_xmlEscape (s : Str) : '<' ∉ xmlEscape s := by
  intro hmem
  obtain ⟨c, -, hc⟩ := List.mem_flatMap.mp hmem
  by_cases hspecial : c ∈ specials
  · exact (entities_apart c hspecial).2.1 hc
  · rw [xmlEntity_of_notMem hspecial, List.mem_singleton] at hc
    subst hc
    exact hspecial (by decide)

/-! ### Property lists -/

section Plist

variable {label workDir diagDir : Str} {args : List Str} {env : List (Str × Str)}

/-- What stands around a value does not have the marker of the next one. -/
theorem argument_tags :
    Clear "<string>".toList "    ".toList ∧ Clear "<string>".toList "  ".toList ∧
      Clear "<string>".toList ['\n'] ∧ Clear "<string>".toList "</string>".toList := by
  decide

/-- The values of an array, cut out again. -/
theorem arguments_read (h : ∀ arg ∈ args, '<' ∉ arg) {front back : Str}
    (hfront : Clear "<string>".toList front) (hback : Clear "<string>".toList back) :
    ((splitAll "<string>".toList (front ++ (args.flatMap argument ++ back))).drop 1).filterMap
      (fun chunk => (splitFirst "</string>".toList chunk).map fun parts => xmlUnescape parts.1) =
      args.map xmlUnescape := by
  obtain ⟨hindent, -, hnewline, hclose⟩ := argument_tags
  induction args generalizing front with
  | nil =>
    rw [List.flatMap_nil, List.nil_append, splitAll_of_clear (clear_append hfront hback)]
    rfl
  | cons arg args ih =>
    obtain ⟨harg, hargs⟩ := List.forall_mem_cons.mp h
    have htext : front ++ ((arg :: args).flatMap argument ++ back) =
        (front ++ "    ".toList) ++ ("<string>".toList ++ ((arg ++ "</string>".toList ++ ['\n']) ++
          (args.flatMap argument ++ back))) := by
      rw [List.flatMap_cons, argument]
      simp only [List.append_assoc]
    have hfront' : Clear "<string>".toList (front ++ "    ".toList) := clear_append hfront hindent
    have hchunk : Clear "<string>".toList (arg ++ "</string>".toList ++ ['\n']) :=
      clear_append (clear_append (clear_of_head (by decide) harg) hclose) hnewline
    have hempty : Clear "<string>".toList [] := trivial
    have hrest := ih hargs hempty
    rw [List.nil_append] at hrest
    rw [htext, splitAll_clear hfront', splitAll_marker (by decide), splitAll_clear hchunk]
    cases hparts : splitAll "<string>".toList (args.flatMap argument ++ back) with
    | nil => exact absurd hparts (splitAll_ne_nil _ _)
    | cons part parts =>
      rw [hparts] at hrest
      have hvalue : splitFirst "</string>".toList (arg ++ "</string>".toList ++ ['\n'] ++ part) =
          some (arg, ['\n'] ++ part) := by
        rw [List.append_assoc, List.append_assoc]
        exact splitFirst_of_clear (by decide) (clear_of_head (by decide) harg) _
      rw [joinHead, joinHead, List.drop_succ_cons, List.drop_zero, List.map_cons,
        List.filterMap_cons_some (by rw [hvalue, Option.map_some])]
      exact congrArg _ hrest

/-- What stands around the values does not have the marker `pat`. -/
structure TagsClear (pat : Str) : Prop where
  head : pat.head? = some '<'
  openValue : Clear pat "<string>".toList
  closeValue : Clear pat "</string>".toList
  newline : Clear pat ['\n']
  indent : Clear pat "  ".toList
  header : Clear pat plistHeader
  labelKey : Clear pat ("<key>".toList ++ "Label".toList ++ "</key>".toList)

instance decidableTagsClear (pat : Str) : Decidable (TagsClear pat) :=
  decidable_of_iff (pat.head? = some '<' ∧ Clear pat "<string>".toList ∧
    Clear pat "</string>".toList ∧ Clear pat ['\n'] ∧ Clear pat "  ".toList ∧
    Clear pat plistHeader ∧ Clear pat ("<key>".toList ++ "Label".toList ++ "</key>".toList))
    ⟨fun ⟨h₁, h₂, h₃, h₄, h₅, h₆, h₇⟩ => ⟨h₁, h₂, h₃, h₄, h₅, h₆, h₇⟩,
      fun ⟨h₁, h₂, h₃, h₄, h₅, h₆, h₇⟩ => ⟨h₁, h₂, h₃, h₄, h₅, h₆, h₇⟩⟩

/-- The markers that are looked for before the values. -/
theorem markers_clear :
    TagsClear "<key>ProgramArguments</key>".toList ∧ TagsClear "</array>".toList ∧
      TagsClear "<key>TOOLU_RUNNER_HOME</key>".toList := by
  decide +kernel

variable {pat : Str}

theorem TagsClear.indents (h : TagsClear pat) : Clear pat "    ".toList :=
  clear_append h.indent h.indent

theorem TagsClear.argument (h : TagsClear pat) {arg : Str} (harg : '<' ∉ arg) :
    Clear pat (argument arg) :=
  clear_append (clear_append (clear_append (clear_append h.indents h.openValue)
    (clear_of_head h.head harg)) h.closeValue) h.newline

theorem TagsClear.stringEntry (h : TagsClear pat) {indent key value : Str}
    (hindent : Clear pat indent) (hkey : Clear pat ("<key>".toList ++ key ++ "</key>".toList))
    (hvalue : '<' ∉ value) : Clear pat (stringEntry indent key value) := by
  have hfront : Clear pat (indent ++ "<key>".toList ++ key ++ "</key>".toList) := by
    rw [List.append_assoc indent, List.append_assoc indent]
    exact clear_append hindent hkey
  exact clear_append (clear_append (clear_append (clear_append (clear_append (clear_append hfront
    h.newline) hindent) h.openValue) (clear_of_head h.head hvalue)) h.closeValue) h.newline

theorem parseLaunchdTarget_arguments (hlabel : '<' ∉ label) (hargs : ∀ arg ∈ args, '<' ∉ arg)
    (tail : Str) :
    parseLaunchdTarget (plistHeader ++ stringEntry "  ".toList "Label".toList label ++
      programArguments args ++ tail) = targetFromArgs (args.map xmlUnescape) := by
  have htags := markers_clear.1
  have hbefore := clear_append (clear_append htags.header
    (htags.stringEntry htags.indent htags.labelKey hlabel)) htags.indent
  have hargument : Clear "</array>".toList (args.flatMap argument) :=
    clear_flatMap fun arg harg => markers_clear.2.1.argument (hargs arg harg)
  have harray : Clear "</array>".toList (['\n'] ++ (args.flatMap argument ++ "  ".toList)) :=
    clear_append markers_clear.2.1.newline (clear_append hargument markers_clear.2.1.indent)
  have hopen : Clear "<array>".toList (['\n'] ++ "  ".toList) :=
    clear_of_head (a := '<') (by decide) (by decide)
  have htext : plistHeader ++ stringEntry "  ".toList "Label".toList label ++
      programArguments args ++ tail =
        (plistHeader ++ stringEntry "  ".toList "Label".toList label ++ "  ".toList) ++
          ("<key>ProgramArguments</key>".toList ++ ((['\n'] ++ "  ".toList) ++
            ("<array>".toList ++ ((['\n'] ++ (args.flatMap argument ++ "  ".toList)) ++
              ("</array>".toList ++ (['\n'] ++ tail)))))) := by
    unfold programArguments
    simp only [List.append_assoc]
  unfold parseLaunchdTarget
  rw [htext, splitFirst_of_clear (by decide) hbefore, Option.bind_eq_bind, Option.bind_some]
  dsimp only
  rw [splitFirst_of_clear (by decide) hopen, Option.bind_some]
  dsimp only
  rw [splitFirst_of_clear (by decide) harray, Option.bind_some]
  dsimp only
  rw [arguments_read hargs argument_tags.2.2.1 argument_tags.2.1]

theorem parseLaunchdTarget_renderPlist (hlabel : '<' ∉ label) (hargs : ∀ arg ∈ args, '<' ∉ arg) :
    parseLaunchdTarget (renderPlist label args workDir env diagDir) =
      targetFromArgs (args.map xmlUnescape) := by
  rw [← parseLaunchdTarget_arguments hlabel hargs]
  apply congrArg
  unfold renderPlist
  simp only [List.append_assoc]
  rfl

/-- What stands in front of the environment, and its `PATH`. -/
def plistFront (label : Str) (args : List Str) (workDir path : Str) : Str :=
  plistHeader ++ stringEntry "  ".toList "Label".toList label ++ programArguments args ++
    stringEntry "  ".toList "WorkingDirectory".toList workDir ++
    "  <key>EnvironmentVariables</key>\n".toList ++ "  <dict>\n".toList ++
    stringEntry "    ".toList "PATH".toList path

/-- What stands behind the environment. -/
def plistBack (out err : Str) : Str :=
  "  </dict>\n".toList ++ "  <key>KeepAlive</key>\n".toList ++ "  <true/>\n".toList ++
    "  <key>RunAtLoad</key>\n".toList ++ "  <true/>\n".toList ++
    stringEntry "  ".toList "StandardOutPath".toList out ++
    stringEntry "  ".toList "StandardErrorPath".toList err ++
    "</dict>\n".toList ++ "</plist>\n".toList

theorem renderPlist_eq (path : Str) (rest : List (Str × Str)) :
    renderPlist label args workDir (("PATH".toList, path) :: rest) diagDir =
      plistFront label args workDir path ++
        (rest.flatMap (fun entry => stringEntry "    ".toList entry.1 entry.2) ++
          plistBack (xmlEscape (Paths.join diagDir "service.out.log".toList))
            (xmlEscape (Paths.join diagDir "service.err.log".toList))) := by
  unfold renderPlist plistFront plistBack environment
  simp only [List.flatMap_cons, List.append_assoc]

/-- None of the other keys is the one of the runner home, which is written in three parts. -/
theorem home_tags :
    Clear "<key>TOOLU_RUNNER_HOME</key>".toList "<key>ProgramArguments</key>".toList ∧
    Clear "<key>TOOLU_RUNNER_HOME</key>".toList "<array>".toList ∧
    Clear "<key>TOOLU_RUNNER_HOME</key>".toList "</array>".toList ∧
    Clear "<key>TOOLU_RUNNER_HOME</key>".toList
      ("<key>".toList ++ "WorkingDirectory".toList ++ "</key>".toList) ∧
    Clear "<key>TOOLU_RUNNER_HOME</key>".toList
      ("  <key>EnvironmentVariables</key>\n".toList ++ "  <dict>\n".toList) ∧
    Clear "<key>TOOLU_RUNNER_HOME</key>".toList
      ("<key>".toList ++ "PATH".toList ++ "</key>".toList) ∧
    Clear "<key>TOOLU_RUNNER_HOME</key>".toList
      ("  </dict>\n".toList ++ "  <key>KeepAlive</key>\n".toList ++ "  <true/>\n".toList ++
        "  <key>RunAtLoad</key>\n".toList ++ "  <true/>\n".toList) ∧
    Clear "<key>TOOLU_RUNNER_HOME</key>".toList
      ("<key>".toList ++ "StandardOutPath".toList ++ "</key>".toList) ∧
    Clear "<key>TOOLU_RUNNER_HOME</key>".toList
      ("<key>".toList ++ "StandardErrorPath".toList ++ "</key>".toList) ∧
    Clear "<key>TOOLU_RUNNER_HOME</key>".toList "</dict>\n".toList ∧
    Clear "<key>TOOLU_RUNNER_HOME</key>".toList "</plist>\n".toList ∧
    "<key>TOOLU_RUNNER_HOME</key>".toList =
      "<key>".toList ++ "TOOLU_RUNNER_HOME".toList ++ "</key>".toList := by
  decide

theorem clear_plistFront {path : Str} (hlabel : '<' ∉ label) (hargs : ∀ arg ∈ args, '<' ∉ arg)
    (hworkDir : '<' ∉ workDir) (hpath : '<' ∉ path) :
    Clear "<key>TOOLU_RUNNER_HOME</key>".toList (plistFront label args workDir path) := by
  obtain ⟨hkey, hopen, hclose, hworkKey, henvironment, hpathKey, -⟩ := home_tags
  have htags := markers_clear.2.2
  have hargument := clear_flatMap fun arg harg => htags.argument (hargs arg harg)
  have harguments : Clear "<key>TOOLU_RUNNER_HOME</key>".toList (programArguments args) :=
    clear_append (clear_append (clear_append (clear_append (clear_append (clear_append (clear_append
      (clear_append (clear_append htags.indent hkey) htags.newline) htags.indent) hopen)
      htags.newline) hargument) htags.indent) hclose) htags.newline
  unfold plistFront
  rw [List.append_assoc _ "  <key>EnvironmentVariables</key>\n".toList]
  exact clear_append (clear_append (clear_append (clear_append (clear_append htags.header
    (htags.stringEntry htags.indent htags.labelKey hlabel)) harguments)
    (htags.stringEntry htags.indent hworkKey hworkDir)) henvironment)
    (htags.stringEntry htags.indents hpathKey hpath)

theorem clear_plistBack (out err : Str) :
    Clear "<key>TOOLU_RUNNER_HOME</key>".toList (plistBack (xmlEscape out) (xmlEscape err)) := by
  obtain ⟨-, -, -, -, -, -, hkeys, hout, herr, hdict, hplist, -⟩ := home_tags
  have htags := markers_clear.2.2
  exact clear_append (clear_append (clear_append (clear_append hkeys
    (htags.stringEntry htags.indent hout (lt_notMem_xmlEscape out)))
    (htags.stringEntry htags.indent herr (lt_notMem_xmlEscape err))) hdict) hplist

/-- The home that is pinned, or that none is. -/
theorem parseLaunchdHome_renderPlist {path : Str} (home : Option Str) (hlabel : '<' ∉ label)
    (hargs : ∀ arg ∈ args, '<' ∉ arg) (hworkDir : '<' ∉ workDir) (hpath : '<' ∉ path) :
    parseLaunchdHome (renderPlist label args workDir (("PATH".toList, path) ::
      home.toList.map fun home => ("TOOLU_RUNNER_HOME".toList, xmlEscape home)) diagDir) = home := by
  have hfront := clear_plistFront hlabel hargs hworkDir hpath
  rw [renderPlist_eq]
  unfold parseLaunchdHome
  cases home with
  | none =>
    have hback := clear_plistBack (Paths.join diagDir "service.out.log".toList)
      (Paths.join diagDir "service.err.log".toList)
    have hnone := splitFirst_eq_none_of_clear (List.ne_nil_of_mem
      (List.mem_of_mem_head? markers_clear.2.2.head)) (clear_append hfront hback)
    rw [Option.toList_none, List.map_nil, List.flatMap_nil, List.nil_append, hnone]
    rfl
  | some home =>
    have hbefore := clear_append hfront markers_clear.2.2.indents
    have hopen : Clear "<string>".toList (['\n'] ++ "    ".toList) :=
      clear_of_head (a := '<') (by decide) (by decide)
    have hvalue : Clear "</string>".toList (xmlEscape home) :=
      clear_of_head (by decide) (lt_notMem_xmlEscape home)
    have htext : ∀ back, plistFront label args workDir path ++
        (((some home).toList.map fun home => ("TOOLU_RUNNER_HOME".toList, xmlEscape home)).flatMap
          (fun entry => stringEntry "    ".toList entry.1 entry.2) ++ back) =
        (plistFront label args workDir path ++ "    ".toList) ++
          ("<key>TOOLU_RUNNER_HOME</key>".toList ++ ((['\n'] ++ "    ".toList) ++
            ("<string>".toList ++ (xmlEscape home ++ ("</string>".toList ++
              (['\n'] ++ back)))))) := by
      intro back
      obtain ⟨-, -, -, -, -, -, -, -, -, -, -, hkey⟩ := home_tags
      rw [hkey]
      unfold stringEntry
      simp only [Option.toList_some, List.map_cons, List.map_nil, List.flatMap_singleton,
        List.append_assoc]
    rw [htext, splitFirst_of_clear (List.ne_nil_of_mem
      (List.mem_of_mem_head? markers_clear.2.2.head)) hbefore, Option.bind_eq_bind, Option.bind_some]
    dsimp only
    rw [splitFirst_of_clear (by decide) hopen, Option.bind_some]
    dsimp only
    rw [splitFirst_of_clear (by decide) hvalue, Option.bind_some]
    dsimp only
    rw [xmlUnescape_xmlEscape]

end Plist

end GhRunner.Config
