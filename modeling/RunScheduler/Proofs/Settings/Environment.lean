import Mathlib.Data.List.Nodup
import RunScheduler.Settings.Environment

/-!
# Settings after variables

A variable reaches one setting, the one whose path stands in its name (`ofVariable?_eq_some_iff`),
and no two settings have the same path. So, as long as no value is faulty, applying variables is
writing to places that have nothing to do with one another: each setting keeps the last value
written to it (`get_applyEnvironment`), the names that reach nothing are handed back
(`outcome_applyEnvironment`), and the order matters only among variables of one name
(`applyEnvironment_perm`). A faulty value ends it where it stands (`applyEnvironment_faulty`).
-/

namespace RunScheduler

/-! ### Names of variables -/

namespace Setting

/-- What stands for a character of a path in the name of a variable. -/
def capital (c : Char) : Char :=
  if c = '.' then '_' else c.toUpper

/-- The dotted name in capitals, with underscores for the points, after the common beginning. -/
def nameOfPath (k : Setting) : String :=
  variableBeginning ++ String.ofList (k.dottedName.toList.map capital)

/-- The characters of the name of a variable. -/
def nameChars (k : Setting) : List Char :=
  variableBeginning.toList ++
    (['_'].intercalate ((k.tables ++ [k.key]).map String.toList)).map Char.toUpper

theorem toList_variableEnding (k : Setting) : k.variableEnding.toList =
    (['_'].intercalate ((k.tables ++ [k.key]).map String.toList)).map Char.toUpper := by
  cases k <;> decide +kernel

theorem toList_variableName (k : Setting) : k.variableName.toList = k.nameChars := by
  rw [variableName, nameChars, String.toList_append, toList_variableEnding]

theorem map_capital_intercalate {parts : List (List Char)} (h : ∀ part ∈ parts, '.' ∉ part) :
    (['.'].intercalate parts).map capital = (['_'].intercalate parts).map Char.toUpper := by
  have hpart : ∀ part ∈ parts, part.map capital = part.map Char.toUpper := fun part hmem =>
    List.map_congr_left fun c hc => if_neg (ne_of_mem_of_not_mem hc (h part hmem))
  clear h
  induction parts with
  | nil => rfl
  | cons part parts ih =>
    obtain ⟨hfirst, hparts⟩ := List.forall_mem_cons.mp hpart
    cases parts with
    | nil => simpa [List.intercalate] using hfirst
    | cons part' parts =>
      rw [List.intercalate_cons_cons, List.intercalate_cons_cons]
      simp only [List.map_append, ih hparts, hfirst]
      rfl

theorem toList_nameOfPath (k : Setting) : k.nameOfPath.toList = k.nameChars := by
  have hpoints : ∀ part ∈ (k.tables ++ [k.key]).map String.toList, '.' ∉ part := by
    cases k <;> simp [tables, key]
  rw [nameOfPath, nameChars, String.toList_append, String.toList_ofList, dottedName,
    String.toList_intercalate]
  exact congrArg _ (map_capital_intercalate hpoints)

theorem variableName_eq_nameOfPath (k : Setting) : k.variableName = k.nameOfPath :=
  String.toList_injective ((toList_variableName k).trans (toList_nameOfPath k).symm)

theorem nameChars_injective : Function.Injective nameChars := by
  have hnodup : (all.map nameChars).Nodup := by decide +kernel
  exact fun k l h => List.inj_on_of_nodup_map hnodup (mem_all k) (mem_all l) h

theorem nameOfPath_injective : Function.Injective nameOfPath := by
  intro k l h
  have hchars := congrArg String.toList h
  rw [toList_nameOfPath, toList_nameOfPath] at hchars
  exact nameChars_injective hchars

theorem ofVariable?_eq_some_iff {name : String} {k : Setting} :
    ofVariable? name = some k ↔ name = k.nameOfPath := by
  constructor
  · intro h
    have hname := List.find?_some h
    rw [← variableName_eq_nameOfPath]
    exact (of_decide_eq_true hname).symm
  · rintro rfl
    have hfound : (ofVariable? k.nameOfPath).isSome = true :=
      List.find?_isSome.mpr ⟨k, mem_all k, decide_eq_true (variableName_eq_nameOfPath k)⟩
    obtain ⟨l, hl⟩ := Option.isSome_iff_exists.mp hfound
    have hname := List.find?_some hl
    have hpath := of_decide_eq_true hname
    rw [variableName_eq_nameOfPath] at hpath
    rw [hl, nameOfPath_injective hpath]

theorem ofVariable?_nameOfPath (k : Setting) : ofVariable? k.nameOfPath = some k :=
  ofVariable?_eq_some_iff.mpr rfl

/-- A variable is meant for the program if its name has the common beginning. -/
def isMeant (name : String) : Bool :=
  variableBeginning.toList.isPrefixOf name.toList

theorem startsWith_variableBeginning (name : String) :
    name.startsWith variableBeginning = isMeant name := by
  rw [Bool.eq_iff_iff, String.startsWith_string_iff, isMeant, List.isPrefixOf_iff_prefix]

theorem ofVariable?_eq_find?_nameChars (name : String) :
    ofVariable? name = all.find? fun k => k.nameChars = name.toList := by
  have hsame (k : Setting) : k.variableName = name ↔ k.nameChars = name.toList := by
    rw [← toList_variableName, String.toList_inj]
  rw [ofVariable?]
  simp only [hsame]

theorem isMeant_nameOfPath (k : Setting) : isMeant k.nameOfPath = true := by
  rw [isMeant, List.isPrefixOf_iff_prefix, nameOfPath, String.toList_append]
  exact List.prefix_append _ _

/-- A variable that is meant for the program and names no setting. -/
def isUnknown (name : String) : Bool :=
  isMeant name && all.all fun k => k.nameOfPath ≠ name

theorem isUnknown_nameOfPath (k : Setting) : isUnknown k.nameOfPath = false := by
  simp [isUnknown, mem_all]

theorem isUnknown_of_ofVariable? {name : String} (h : ofVariable? name = none) :
    isUnknown name = isMeant name := by
  have hother (k : Setting) : k.nameOfPath ≠ name := by
    rintro rfl
    rw [ofVariable?_nameOfPath] at h
    cases h
  simp [isUnknown, hother]

end Setting

namespace Settings

open Setting

/-! ### Settings by their single values -/

attribute [ext] LoggingSettings StoreSettings SchedulerSettings LateRunsSettings
  PauseExpirationsSettings CancellationCleanupSettings Settings

theorem eq_of_get {s t : Settings} (h : ∀ k, s.get k = t.get k) : s = t :=
  Settings.ext (h .home)
    (LoggingSettings.ext (h .loggingLevel) (h .loggingFormat))
    (StoreSettings.ext (h .storePath) (h .storeRetryAttempts) (h .storeRetryBaseDelay))
    (SchedulerSettings.ext (h .schedulerEnabled) (h .schedulerLoop) (h .schedulerDeploymentBatch)
      (h .schedulerInsertBatch) (h .schedulerConcurrency) (h .schedulerMinRuns)
      (h .schedulerMaxRuns) (h .schedulerMinAhead) (h .schedulerMaxAhead))
    (LateRunsSettings.ext (h .lateRunsEnabled) (h .lateRunsLoop) (h .lateRunsAfter)
      (h .lateRunsBatch))
    (PauseExpirationsSettings.ext (h .pausesEnabled) (h .pausesLoop) (h .pausesBatch))
    (CancellationCleanupSettings.ext (h .cleanupEnabled) (h .cleanupLoop) (h .cleanupBatch)
      (h .cleanupLookback))

/-! ### Variables one by one -/

variable {s : Settings} {vars before after rest : List (String × String)} {k : Setting}
  {name text reason : String}

theorem applyEnvironment_ok {v : k.kind.Value} (h : k.kind.read text = .ok v) :
    s.applyEnvironment ((k.nameOfPath, text) :: rest) = (s.set k v).applyEnvironment rest := by
  rw [applyEnvironment, ofVariable?_nameOfPath]
  simp only [applyVariable, h]

theorem applyEnvironment_error (h : k.kind.read text = .error reason) :
    s.applyEnvironment ((k.nameOfPath, text) :: rest) =
      ⟨s, .error (.environment k.nameOfPath text reason)⟩ := by
  rw [applyEnvironment, ofVariable?_nameOfPath]
  simp only [applyVariable, h]

theorem applyEnvironment_other (h : ofVariable? name = none) :
    s.applyEnvironment ((name, text) :: rest) =
      if isUnknown name then
        ⟨(s.applyEnvironment rest).settings, (s.applyEnvironment rest).outcome.map (name :: ·)⟩
      else s.applyEnvironment rest := by
  rw [applyEnvironment, h, isUnknown_of_ofVariable? h]
  simp only [startsWith_variableBeginning]

/-! ### All variables -/

/-- Each variable that names a setting has a value of that setting. -/
def AllReadable (vars : List (String × String)) : Prop :=
  ∀ k text, (nameOfPath k, text) ∈ vars → ∃ v, k.kind.read text = .ok v

instance decidableAllReadable (vars : List (String × String)) : Decidable (AllReadable vars) :=
  decidable_of_iff
    (∀ e ∈ vars, (all.find? fun k => k.nameChars = e.1.toList).all
      fun k => (k.kind.read e.2).isOk) <| by
    simp only [← ofVariable?_eq_find?_nameChars]
    constructor
    · intro h k text hmem
      have hok := h _ hmem
      rw [ofVariable?_nameOfPath, Option.all_some] at hok
      cases hread : k.kind.read text with
      | ok v => exact ⟨v, rfl⟩
      | error reason => simp [hread, Except.isOk, Except.toBool] at hok
    · rintro h ⟨name, text⟩ hmem
      cases hname : ofVariable? name with
      | none => rfl
      | some k =>
        obtain rfl := ofVariable?_eq_some_iff.mp hname
        obtain ⟨v, hv⟩ := h k text hmem
        simp [hv, Except.isOk, Except.toBool]

theorem AllReadable.of_cons {e : String × String} (h : AllReadable (e :: rest)) :
    AllReadable rest := fun k text hmem => h k text (.tail e hmem)

/-- The names that are meant for the program and reach nothing. -/
def unknownNames (vars : List (String × String)) : List String :=
  (vars.map (·.1)).filter isUnknown

theorem unknownNames_cons (name text : String) (rest : List (String × String)) :
    unknownNames ((name, text) :: rest) =
      if isUnknown name then name :: unknownNames rest else unknownNames rest := by
  rw [unknownNames, List.map_cons, List.filter_cons]
  rfl

theorem applyEnvironment_append (h : AllReadable before) :
    s.applyEnvironment (before ++ rest) =
      let o := (s.applyEnvironment before).settings.applyEnvironment rest
      ⟨o.settings, o.outcome.map (unknownNames before ++ ·)⟩ := by
  induction before generalizing s with
  | nil =>
    have hid (o : Except SettingsError (List String)) : o.map (unknownNames [] ++ ·) = o := by
      cases o <;> rfl
    simp only [List.nil_append, applyEnvironment, hid]
  | cons e before ih =>
    obtain ⟨name, text⟩ := e
    rw [List.cons_append]
    cases hname : ofVariable? name with
    | some k =>
      obtain rfl := ofVariable?_eq_some_iff.mp hname
      obtain ⟨v, hv⟩ := h k text List.mem_cons_self
      rw [applyEnvironment_ok hv, applyEnvironment_ok hv, ih h.of_cons, unknownNames_cons,
        isUnknown_nameOfPath]
      rfl
    | none =>
      rw [applyEnvironment_other hname, applyEnvironment_other hname, ih h.of_cons,
        unknownNames_cons]
      cases isUnknown name with
      | false => rfl
      | true =>
        simp only [if_true]
        generalize (s.applyEnvironment before).settings.applyEnvironment rest = o
        cases o.outcome <;> rfl

theorem outcome_applyEnvironment (h : AllReadable vars) :
    (s.applyEnvironment vars).outcome = .ok (unknownNames vars) := by
  rw [← List.append_nil vars, applyEnvironment_append h, List.append_nil]
  simp only [applyEnvironment, Except.map, List.append_nil]

theorem applyEnvironment_faulty (h : AllReadable before)
    (hfaulty : k.kind.read text = .error reason) :
    s.applyEnvironment (before ++ (k.nameOfPath, text) :: after) =
      ⟨(s.applyEnvironment before).settings, .error (.environment k.nameOfPath text reason)⟩ := by
  rw [applyEnvironment_append h, applyEnvironment_error hfaulty]
  rfl

theorem exists_faulty (h : ¬ AllReadable vars) :
    ∃ before k text reason after, vars = before ++ (nameOfPath k, text) :: after ∧
      AllReadable before ∧ k.kind.read text = .error reason := by
  induction vars with
  | nil => exact absurd (fun _ _ => nofun) h
  | cons e vars ih =>
    obtain ⟨name, text⟩ := e
    by_cases hfaulty : ∃ k reason, name = nameOfPath k ∧ k.kind.read text = .error reason
    · obtain ⟨k, reason, rfl, hread⟩ := hfaulty
      exact ⟨[], k, text, reason, vars, rfl, fun _ _ => nofun, hread⟩
    · have hreadable : ∀ k text', (nameOfPath k, text') = (name, text) →
          ∃ v, k.kind.read text' = .ok v := by
        rintro k text' heq
        cases heq
        cases hread : k.kind.read text with
        | ok v => exact ⟨v, rfl⟩
        | error reason => exact absurd ⟨k, reason, rfl, hread⟩ hfaulty
      have hrest : ¬ AllReadable vars := fun hrest => h fun k text' hmem =>
        (List.mem_cons.mp hmem).elim (hreadable k text') (hrest k text')
      obtain ⟨before, k, text', reason, after, rfl, hbefore, hread⟩ := ih hrest
      refine ⟨(name, text) :: before, k, text', reason, after, rfl, fun l text' hmem => ?_, hread⟩
      exact (List.mem_cons.mp hmem).elim (hreadable l text') (hbefore l text')

/-! ### The last value of a name -/

/-- The value of the last of the variables with this name. -/
def lastValue? (name : String) (vars : List (String × String)) : Option String :=
  vars.reverse.lookup name

theorem lastValue?_cons (name name' text : String) (rest : List (String × String)) :
    lastValue? name ((name', text) :: rest) =
      (lastValue? name rest).or (if name = name' then some text else none) := by
  rw [lastValue?, List.reverse_cons, List.lookup_append, List.lookup_cons, List.lookup_nil]
  by_cases hname : name = name'
  · simp [hname, lastValue?]
  · simp [hname, lastValue?, beq_eq_false_iff_ne.mpr hname]

theorem lastValue?_eq_some_iff (hnodup : (vars.map (·.1)).Nodup) :
    lastValue? name vars = some text ↔ (name, text) ∈ vars := by
  induction vars generalizing text with
  | nil => simp [lastValue?]
  | cons e vars ih =>
    obtain ⟨name', text'⟩ := e
    rw [List.map_cons, List.nodup_cons] at hnodup
    rw [lastValue?_cons, List.mem_cons, Prod.mk.injEq]
    by_cases hname : name = name'
    · subst hname
      have hlater (text : String) : (name, text) ∉ vars := fun hmem =>
        hnodup.1 (List.mem_map.mpr ⟨_, hmem, rfl⟩)
      have hnone : lastValue? name vars = none := by
        refine Option.eq_none_iff_forall_ne_some.mpr fun text h => ?_
        exact hlater text ((ih hnodup.2).mp h)
      simp [hnone, hlater, eq_comm]
    · simp [hname, ih hnodup.2]

/-- Each setting has the last value that was given for it, or the one it had. -/
theorem get_applyEnvironment (h : AllReadable vars) (k : Setting) :
    match lastValue? k.nameOfPath vars with
    | some text => k.kind.read text = .ok ((s.applyEnvironment vars).settings.get k)
    | none => (s.applyEnvironment vars).settings.get k = s.get k := by
  induction vars generalizing s with
  | nil => rfl
  | cons e vars ih =>
    obtain ⟨name, text⟩ := e
    rw [lastValue?_cons]
    cases hname : ofVariable? name with
    | none =>
      have hne : k.nameOfPath ≠ name := by
        rintro rfl
        rw [ofVariable?_nameOfPath] at hname
        cases hname
      have hsame : (s.applyEnvironment ((name, text) :: vars)).settings =
          (s.applyEnvironment vars).settings := by
        rw [applyEnvironment_other hname]
        split_ifs <;> rfl
      rw [hsame, if_neg hne, Option.or_none]
      exact ih h.of_cons
    | some l =>
      obtain rfl := ofVariable?_eq_some_iff.mp hname
      obtain ⟨v, hv⟩ := h l text List.mem_cons_self
      rw [applyEnvironment_ok hv]
      have hrest := ih (s := s.set l v) h.of_cons
      cases hlast : lastValue? k.nameOfPath vars with
      | some text' =>
        rw [hlast] at hrest
        exact hrest
      | none =>
        rw [hlast] at hrest
        by_cases hkl : k = l
        · subst hkl
          rw [if_pos rfl, Option.none_or]
          dsimp only at hrest ⊢
          rw [hrest, get_set_self, hv]
        · rw [if_neg fun heq => hkl (nameOfPath_injective heq), Option.none_or]
          dsimp only at hrest ⊢
          rw [hrest, get_set_of_ne s v hkl]

theorem applyEnvironment_perm {vars' : List (String × String)} (h : AllReadable vars)
    (hperm : vars.Perm vars') (hnodup : (vars.map (·.1)).Nodup) :
    (s.applyEnvironment vars').settings = (s.applyEnvironment vars).settings := by
  have h' : AllReadable vars' := fun k text hmem => h k text (hperm.mem_iff.mpr hmem)
  have hnodup' : (vars'.map (·.1)).Nodup := (hperm.map _).nodup_iff.mp hnodup
  refine eq_of_get fun k => ?_
  have hlast : lastValue? k.nameOfPath vars' = lastValue? k.nameOfPath vars := by
    refine Option.ext fun text => ?_
    rw [lastValue?_eq_some_iff hnodup', lastValue?_eq_some_iff hnodup, hperm.mem_iff]
  have hget := get_applyEnvironment (s := s) h k
  have hget' := get_applyEnvironment (s := s) h' k
  rw [hlast] at hget'
  cases hvalue : lastValue? k.nameOfPath vars with
  | none =>
    rw [hvalue] at hget hget'
    exact hget'.trans hget.symm
  | some text =>
    rw [hvalue] at hget hget'
    exact Except.ok.inj (hget'.symm.trans hget)

theorem applyEnvironment_filter_isMeant (s : Settings) (vars : List (String × String)) :
    s.applyEnvironment (vars.filter fun e => isMeant e.1) = s.applyEnvironment vars := by
  induction vars generalizing s with
  | nil => rfl
  | cons e vars ih =>
    obtain ⟨name, text⟩ := e
    rw [List.filter_cons]
    cases hname : ofVariable? name with
    | some k =>
      obtain rfl := ofVariable?_eq_some_iff.mp hname
      rw [if_pos (isMeant_nameOfPath k)]
      cases hread : k.kind.read text with
      | ok v => rw [applyEnvironment_ok hread, applyEnvironment_ok hread, ih]
      | error reason => rw [applyEnvironment_error hread, applyEnvironment_error hread]
    | none =>
      have hunknown := isUnknown_of_ofVariable? hname
      cases hmeant : isMeant name with
      | true => rw [if_pos rfl, applyEnvironment_other hname, applyEnvironment_other hname, ih]
      | false =>
        rw [if_neg Bool.false_ne_true, applyEnvironment_other hname, hunknown, hmeant, ih,
          if_neg Bool.false_ne_true]

/-- **What variables make of settings.**

If no value is faulty, each setting has in the end the value of the last variable named after its
path, or the one it had if there is no such variable; the names that have the common beginning and
are those of no setting are handed back in their order; and variables of pairwise distinct names
give the same settings in any order. Variables without the common beginning have no effect in any
case. The first faulty value is reported with the name of its variable, and the settings are those
that the variables before it made. -/
theorem values_of_variables (s : Settings) (vars : List (String × String)) :
    (AllReadable vars →
      (∀ k, match lastValue? k.nameOfPath vars with
        | some text => k.kind.read text = .ok ((s.applyEnvironment vars).settings.get k)
        | none => (s.applyEnvironment vars).settings.get k = s.get k) ∧
      (s.applyEnvironment vars).outcome = .ok (unknownNames vars) ∧
      ∀ vars', vars.Perm vars' → (vars.map (·.1)).Nodup →
        (s.applyEnvironment vars').settings = (s.applyEnvironment vars).settings) ∧
    s.applyEnvironment (vars.filter fun e => isMeant e.1) = s.applyEnvironment vars ∧
    (¬ AllReadable vars → ∃ before k text reason after,
      vars = before ++ (nameOfPath k, text) :: after ∧ AllReadable before ∧
      k.kind.read text = .error reason ∧
      s.applyEnvironment vars =
        ⟨(s.applyEnvironment before).settings,
          .error (.environment k.nameOfPath text reason)⟩) := by
  refine ⟨fun h => ⟨get_applyEnvironment h, outcome_applyEnvironment h,
    fun _ => applyEnvironment_perm h⟩, applyEnvironment_filter_isMeant s vars, fun h => ?_⟩
  obtain ⟨before, k, text, reason, after, rfl, hbefore, hread⟩ := exists_faulty h
  exact ⟨before, k, text, reason, after, rfl, hbefore, hread,
    applyEnvironment_faulty hbefore hread⟩

/-- One setting twice, a name that reaches nothing, and a variable for other programs. -/
def repeatedVariables : List (String × String) :=
  [("FLOWGRID_SERVICES_LATE_RUNS_BATCH_SIZE", "7"), ("PATH", "/usr/bin"),
   ("FLOWGRID_SERVICES_NOPE", "1"), ("FLOWGRID_SERVICES_LATE_RUNS_BATCH_SIZE", " 9 ")]

/-- One setting for each of two services, and a value that is no number. -/
def faultyVariables : List (String × String) :=
  [("FLOWGRID_SERVICES_LATE_RUNS_BATCH_SIZE", "7"),
   ("FLOWGRID_SERVICES_PAUSE_EXPIRATIONS_BATCH_SIZE", "8"), ("FLOWGRID_STORE_RETRY_ATTEMPTS", "-1"),
   ("FLOWGRID_HOME", "/srv")]

theorem values_of_repeated_variables :
    (AllReadable repeatedVariables ∧
      (({} : Settings).applyEnvironment repeatedVariables).settings.lateRuns.batchSize = 9 ∧
      (({} : Settings).applyEnvironment repeatedVariables).settings.pauseExpirations.batchSize =
        200 ∧
      (({} : Settings).applyEnvironment repeatedVariables).outcome =
        .ok ["FLOWGRID_SERVICES_NOPE"]) ∧
    (AllReadable (faultyVariables.take 2) ∧ ((faultyVariables.take 2).map (·.1)).Nodup ∧
      (({} : Settings).applyEnvironment (faultyVariables.take 2).reverse).settings =
        (({} : Settings).applyEnvironment (faultyVariables.take 2)).settings) ∧
    (¬ AllReadable faultyVariables ∧ ∃ before after,
      faultyVariables = before ++ ("FLOWGRID_STORE_RETRY_ATTEMPTS", "-1") :: after ∧
      ({} : Settings).applyEnvironment faultyVariables =
        ⟨(({} : Settings).applyEnvironment before).settings,
          .error (.environment "FLOWGRID_STORE_RETRY_ATTEMPTS" "-1"
            "invalid digit found in string")⟩) := by
  have hlate : nameOfPath .lateRunsBatch = "FLOWGRID_SERVICES_LATE_RUNS_BATCH_SIZE" := by
    decide +kernel
  have hpauses : nameOfPath .pausesBatch = "FLOWGRID_SERVICES_PAUSE_EXPIRATIONS_BATCH_SIZE" := by
    decide +kernel
  have hattempts : nameOfPath .storeRetryAttempts = "FLOWGRID_STORE_RETRY_ATTEMPTS" := by
    decide +kernel
  have hrepeated : AllReadable repeatedVariables := by decide +kernel
  have hfirst : AllReadable (faultyVariables.take 2) := by decide +kernel
  have hfaulty : ¬ AllReadable faultyVariables := by decide +kernel
  have hnodup : ((faultyVariables.take 2).map (·.1)).Nodup := by decide +kernel
  obtain ⟨hget, houtcome, -⟩ := (values_of_variables {} repeatedVariables).1 hrepeated
  obtain ⟨_, _, hperm⟩ := (values_of_variables {} (faultyVariables.take 2)).1 hfirst
  obtain ⟨before, k, text, reason, after, heq, _, _, hresult⟩ :=
    (values_of_variables {} faultyVariables).2.2 hfaulty
  refine ⟨⟨hrepeated, ?_, ?_, ?_⟩, ⟨hfirst, hnodup, ?_⟩, hfaulty, before, after, ?_⟩
  · have hlast : lastValue? "FLOWGRID_SERVICES_LATE_RUNS_BATCH_SIZE" repeatedVariables =
        some " 9 " := by decide +kernel
    have hbatch := hget .lateRunsBatch
    rw [hlate, hlast] at hbatch
    have hnumber : (readNumber 18446744073709551615 " 9 ").map UInt64.ofNat = .ok 9 := by
      decide +kernel
    have hread : Kind.read .number " 9 " = .ok (9 : UInt64) := hnumber
    have hfield (t : Settings) : t.get .lateRunsBatch = t.lateRuns.batchSize := rfl
    rw [← hfield]
    exact (Except.ok.inj (hread.symm.trans hbatch)).symm
  · have hlast : lastValue? "FLOWGRID_SERVICES_PAUSE_EXPIRATIONS_BATCH_SIZE"
        repeatedVariables = none := by decide +kernel
    have hbatch := hget .pausesBatch
    rw [hpauses, hlast] at hbatch
    have hfield (t : Settings) : t.get .pausesBatch = t.pauseExpirations.batchSize := rfl
    rw [← hfield]
    exact hbatch
  · have hother : ofVariable? "FLOWGRID_SERVICES_NOPE" = none := by
      rw [ofVariable?_eq_find?_nameChars]
      decide +kernel
    have hnope : isUnknown "FLOWGRID_SERVICES_NOPE" = true := by
      rw [isUnknown_of_ofVariable? hother]
      decide +kernel
    have hpath : isUnknown "PATH" = false := by
      rw [isUnknown, show isMeant "PATH" = false by decide +kernel, Bool.false_and]
    have hknown := isUnknown_nameOfPath .lateRunsBatch
    rw [hlate] at hknown
    rw [houtcome, repeatedVariables]
    simp only [unknownNames_cons, hknown, hpath, hnope, Bool.false_eq_true, if_false, if_true]
    rfl
  · exact hperm _ (List.reverse_perm _).symm hnodup
  · have hread : Kind.read .count "-1" = .error "invalid digit found in string" := rfl
    have hwhole : faultyVariables.take 2 ++ (nameOfPath .storeRetryAttempts, "-1") ::
        faultyVariables.drop 3 = faultyVariables := by
      rw [hattempts]
      rfl
    have hreported := hresult
    rw [← hwhole, applyEnvironment_faulty (k := .storeRetryAttempts) hfirst hread,
      Overridden.mk.injEq, Except.error.injEq, SettingsError.environment.injEq] at hreported
    obtain ⟨-, hk, htext, hreason⟩ := hreported
    rw [hresult, ← htext, ← hreason, ← hk, hattempts]
    rw [← hk, ← htext, hattempts] at heq
    exact ⟨heq, rfl⟩

end Settings

end RunScheduler
