import Mathlib.Tactic
import Multitrack.Proofs.Arguments
import Multitrack.Proofs.TableSoundness

/-! # What a run leaves behind

A run ends with an exit code, a text on standard output and at most one written file. These depend on
the names among the arguments and on the files alone; the flags reach nothing but the log. The table is
delivered whole to one place, or nothing is. -/
namespace Multitrack.CommandLine

/-! ## The part of a report that outlives the log -/

/-- Everything a run does but its log. -/
structure Effect where
  exitCode : Nat
  output : String
  file : Option (String × String)
deriving DecidableEq, Repr

def Report.effect (r : Report) : Effect := ⟨r.exitCode, r.output, r.file⟩

theorem Report.effect_eq_mk_iff {r : Report} {code : Nat} {output : String}
    {file : Option (String × String)} : r.effect = ⟨code, output, file⟩ ↔
      r.exitCode = code ∧ r.output = output ∧ r.file = file := by
  rw [effect, Effect.mk.injEq]

def Effect.failed : Effect := ⟨1, "", none⟩

def listed? (files : Files) (name : String) : Option (List Transition) :=
  (files.read? name).bind fun text => (TwoTape.parse text).toOption

/-- The table goes to the named file, or to standard output if the name is empty. -/
def deliver (files : Files) (name table : String) : Effect :=
  if name = "" then ⟨0, table, none⟩
  else if files.writable name then ⟨0, "", some (name, table)⟩
  else .failed

/-- What a command leaves behind. The flags among its options are not looked at. -/
def Command.effect (files : Files) : Command → Effect
  | .help => ⟨0, "", none⟩
  | .reduce o =>
    match listed? files o.input with
    | some ts => deliver files o.output (Row.listing (Multitrack.reduce ts))
    | none => .failed
  | _ => .failed

/-- The check of a reduction never fails: it is made of deterministic sources only, and these have
deterministic tables. -/
theorem checkRows_reduce (o : Options) (ts : List Transition) :
    ∃ log, checkRows o (TwoTape.conflict? ts) (reduce ts) = .ok log := by
  unfold checkRows
  split
  · rename_i h
    have hnone : TwoTape.conflict? ts = none := by simpa using (Bool.and_eq_true_iff.mp h).2
    rw [fault?_reduce_eq_none hnone]
    exact ⟨_, rfl⟩
  · exact ⟨_, rfl⟩

theorem effect_finish (files : Files) (job : Job) :
    (job.finish (files.writable job.options.output)).effect =
      deliver files job.options.output (Row.listing job.reduction.rows) := by
  unfold Job.finish deliver
  by_cases hname : job.options.output = ""
  · simp only [if_pos hname]
    rfl
  · simp only [if_neg hname]
    cases files.writable job.options.output <;> rfl

/-- A file that can be read and holds a listing is reduced, whatever the flags are. -/
theorem prepare_ok (o : Options) {text : String} {ts : List Transition}
    (h : TwoTape.parse text = .ok ts) :
    ∃ log, prepare o (some text) = .ok ⟨o, Reduction.ofTransitions ts, log⟩ := by
  obtain ⟨passed, hpassed⟩ := checkRows_reduce o ts
  unfold prepare
  simp only [h]
  rw [reduce] at hpassed
  rw [hpassed]
  exact ⟨_, rfl⟩

/-- **A run leaves behind what its command calls for.** -/
theorem effect_run (files : Files) (args : List String) :
    (run files args).effect = (Command.ofArgs args).effect files := by
  unfold run
  cases Command.ofArgs args with
  | noArguments => rfl
  | help => rfl
  | unknown arg => rfl
  | noInput => rfl
  | reduce o =>
    dsimp only [Command.effect, listed?]
    cases files.read? o.input with
    | none => rfl
    | some text =>
      rw [Option.bind_some]
      cases hparse : TwoTape.parse text with
      | error e =>
        simp only [prepare, hparse]
        rfl
      | ok ts =>
        obtain ⟨log, hlog⟩ := prepare_ok o hparse
        rw [hlog]
        exact effect_finish files ⟨o, Reduction.ofTransitions ts, log⟩

/-! ## Whole or nothing -/

/-- Nothing stands in the way of a run: its arguments make sense and name an input file, this file can
be read and lists the transitions, and an output file that is named can be opened. -/
structure Completes (files : Files) (args : List String) (items : List Item) (ts : List Transition) :
    Prop where
  spelled : args = spell items
  legal : Legal items
  named : inputName items ≠ ""
  listed : ∃ text, files.read? (inputName items) = some text ∧ TwoTape.parse text = .ok ts
  opens : outputName items ≠ "" → files.writable (outputName items) = true

theorem listed?_eq_some_iff {files : Files} {name : String} {ts : List Transition} :
    listed? files name = some ts ↔
      ∃ text, files.read? name = some text ∧ TwoTape.parse text = .ok ts := by
  rw [listed?, Option.bind_eq_some_iff]
  refine exists_congr fun text => and_congr_right fun _ => ?_
  cases TwoTape.parse text <;> simp [Except.toOption]

theorem effect_of_asksHelp (files : Files) {args : List String} (h : AsksHelp args) :
    (run files args).effect = ⟨0, "", none⟩ := by
  rw [effect_run, (ofArgs_eq_help_iff args).mpr h]
  rfl

/-- Legal arguments that name an input file leave what the two named files allow. -/
theorem effect_of_spelled (files : Files) {items : List Item} (hlegal : Legal items)
    (hnamed : inputName items ≠ "") :
    (run files (spell items)).effect =
      match listed? files (inputName items) with
      | some ts => deliver files (outputName items) (Row.listing (reduce ts))
      | none => .failed := by
  rw [effect_run, (ofArgs_eq_reduce_iff _ _).mpr ⟨items, rfl, hlegal, hnamed, rfl⟩, Command.effect,
    input_foldl_apply, output_foldl_apply]
  rfl

theorem Completes.effect_eq {files : Files} {args : List String} {items : List Item}
    {ts : List Transition} (h : Completes files args items ts) :
    (run files args).effect =
      if outputName items = "" then ⟨0, Row.listing (reduce ts), none⟩
      else ⟨0, "", some (outputName items, Row.listing (reduce ts))⟩ := by
  rw [h.spelled, effect_of_spelled files h.legal h.named, listed?_eq_some_iff.mpr h.listed]
  dsimp only [deliver]
  by_cases hname : outputName items = ""
  · rw [if_pos hname, if_pos hname]
  · rw [if_neg hname, if_neg hname, if_pos (h.opens hname)]

theorem Completes.exitCode_eq {files : Files} {args : List String} {items : List Item}
    {ts : List Transition} (h : Completes files args items ts) : (run files args).exitCode = 0 := by
  have heffect := h.effect_eq
  split at heffect <;> exact (Report.effect_eq_mk_iff.mp heffect).1

/-- A run asks for help, completes, or leaves nothing. -/
theorem asksHelp_or_completes_or_failed (files : Files) (args : List String) :
    AsksHelp args ∨ (∃ items ts, Completes files args items ts) ∨
      (run files args).effect = .failed := by
  cases hcommand : Command.ofArgs args with
  | help => exact .inl ((ofArgs_eq_help_iff args).mp hcommand)
  | reduce o =>
    obtain ⟨items, rfl, hlegal, hnamed, -⟩ := (ofArgs_eq_reduce_iff args o).mp hcommand
    rw [effect_of_spelled files hlegal hnamed]
    cases hlisted : listed? files (inputName items) with
    | none => exact .inr (.inr rfl)
    | some ts =>
      by_cases hopens : outputName items ≠ "" → files.writable (outputName items) = true
      · exact .inr (.inl ⟨items, ts, rfl, hlegal, hnamed, listed?_eq_some_iff.mp hlisted, hopens⟩)
      · obtain ⟨hname, hclosed⟩ := Classical.not_imp.mp hopens
        refine .inr (.inr ?_)
        dsimp only [deliver]
        rw [if_neg hname, if_neg hclosed]
  | _ =>
    refine .inr (.inr ?_)
    rw [effect_run, hcommand]
    rfl

/-- **A run delivers its whole table to one place, or leaves nothing.** It ends well exactly when help
is reached or nothing stands in its way. A run that fails or gives help leaves standard output empty and
writes no file. A run that completes puts all rows of the reduction into the output file named last, and
on standard output if that name is missing or empty. -/
theorem run_whole_or_nothing (files : Files) (args : List String) :
    ((run files args).exitCode = 0 ↔
      AsksHelp args ∨ ∃ items ts, Completes files args items ts) ∧
    ((run files args).exitCode ≠ 0 ∨ AsksHelp args →
      (run files args).output = "" ∧ (run files args).file = none) ∧
    ∀ items ts, Completes files args items ts →
      (outputName items = "" →
        (run files args).output = Row.listing (reduce ts) ∧ (run files args).file = none) ∧
      (outputName items ≠ "" → (run files args).output = "" ∧
        (run files args).file = some (outputName items, Row.listing (reduce ts))) := by
  refine ⟨⟨fun hzero => ?_, ?_⟩, fun h => ?_, fun items ts h => ⟨fun hname => ?_, fun hname => ?_⟩⟩
  · rcases asksHelp_or_completes_or_failed files args with h | h | h
    · exact .inl h
    · exact .inr h
    · rw [(Report.effect_eq_mk_iff.mp h).1] at hzero
      cases hzero
  · rintro (h | ⟨items, ts, h⟩)
    · exact (Report.effect_eq_mk_iff.mp (effect_of_asksHelp files h)).1
    · exact h.exitCode_eq
  · rcases asksHelp_or_completes_or_failed files args with hhelp | ⟨items, ts, hdone⟩ | hfailed
    · exact (Report.effect_eq_mk_iff.mp (effect_of_asksHelp files hhelp)).2
    · have hhelp := h.resolve_left (not_not_intro hdone.exitCode_eq)
      exact (Report.effect_eq_mk_iff.mp (effect_of_asksHelp files hhelp)).2
    · exact (Report.effect_eq_mk_iff.mp hfailed).2
  · have heffect := h.effect_eq
    rw [if_pos hname] at heffect
    exact (Report.effect_eq_mk_iff.mp heffect).2
  · have heffect := h.effect_eq
    rw [if_neg hname] at heffect
    exact (Report.effect_eq_mk_iff.mp heffect).2

def oneListing : Files := .flat [("m", "q 0 0 q 1 1 R L\n")]

/-- An empty argument comes first, and the output file named last is called like a flag. -/
theorem run_whole_or_nothing_misleading :
    Completes oneListing ["", "-o", "x", "m", "-o", "-v"]
      [.input "", .output "x", .input "m", .output "-v"]
      [⟨"q", "0", "0", "q", "1", "1", .right, .left⟩] ∧
    (run oneListing ["", "-o", "x", "m", "-o", "-v"]).exitCode = 0 ∧
    (run oneListing ["", "-o", "x", "m", "-o", "-v"]).output = "" ∧
    (run oneListing ["", "-o", "x", "m", "-o", "-v"]).file =
      some ("-v", Row.listing (reduce [⟨"q", "0", "0", "q", "1", "1", .right, .left⟩])) ∧
    AsksHelp ["-o", "-h", "--help", "-w"] ∧
    (run oneListing ["-o", "-h", "--help", "-w"]).file = none := by
  have hdone : Completes oneListing ["", "-o", "x", "m", "-o", "-v"]
      [.input "", .output "x", .input "m", .output "-v"]
      [⟨"q", "0", "0", "q", "1", "1", .right, .left⟩] :=
    ⟨rfl, ⟨by decide, by decide⟩, by decide, ⟨_, rfl, by decide +kernel⟩, by decide +kernel⟩
  have hhelp : AsksHelp ["-o", "-h", "--help", "-w"] :=
    ⟨[.output "-h"], "--help", ["-w"], rfl, ⟨by decide, by decide⟩, .inr rfl⟩
  obtain ⟨hexit, -, hplace⟩ := run_whole_or_nothing oneListing ["", "-o", "x", "m", "-o", "-v"]
  obtain ⟨houtput, hfile⟩ := (hplace _ _ hdone).2 (by decide)
  exact ⟨hdone, hexit.mpr (.inr ⟨_, _, hdone⟩), houtput, hfile, hhelp,
    ((run_whole_or_nothing oneListing _).2.1 (.inr hhelp)).2⟩

/-! ## Flags -/

/-- Options that name the same files lead to the same effect. -/
theorem effect_scan_congr (files : Files) {o o' : Options} (hinput : o.input = o'.input)
    (houtput : o.output = o'.output) (args : List String) :
    (Command.scan o args).effect files = (Command.scan o' args).effect files := by
  -- both readings take the same branches, for these ask for the input name and no other option
  fun_induction Command.scan o args generalizing o' with
  | case1 o h => rw [Command.scan, if_pos (hinput ▸ h)]
  | case2 o h =>
    rw [Command.scan, if_neg (hinput ▸ h), Command.effect, Command.effect, hinput, houtput]
  | case3 o => rfl
  | case4 o name rest ih => exact @ih { o' with output := name } hinput rfl
  | case5 o rest h1 ih =>
    rw [scan_cons h1, if_pos rfl]
    exact @ih { o' with verbose := true } hinput houtput
  | case6 o rest h1 h2 ih =>
    rw [scan_cons h1, if_neg h2, if_pos rfl]
    exact @ih { o' with check := true } hinput houtput
  | case7 o arg rest h1 h2 h3 h4 => rw [scan_cons h1, if_neg h2, if_neg h3, if_pos h4]
  | case8 o arg rest h1 h2 h3 h4 h5 ih =>
    rw [scan_cons h1, if_neg h2, if_neg h3, if_neg h4, if_pos (hinput ▸ h5)]
    exact @ih { o' with input := arg } rfl houtput
  | case9 o arg rest h1 h2 h3 h4 h5 =>
    rw [scan_cons h1, if_neg h2, if_neg h3, if_neg h4, if_neg (hinput ▸ h5)]

/-- Arguments that do not end in `-o` are read to their end and do not reach beyond it, or reading ends
within them. -/
theorem spelled_or_scan_const (o : Options) {before : List String} (h : before.getLast? ≠ some "-o") :
    (∃ items, before = spell items ∧ FitsAll o items) ∨
      ∃ c, ∀ after, Command.scan o (before ++ after) = c := by
  obtain ⟨items, rest, rfl, hfits, hstops⟩ := exists_stops o before
  have hscan : ∀ after, Command.scan o (spell items ++ rest ++ after) =
      Command.scan (items.foldl Item.apply o) (rest ++ after) := by
    intro after
    rw [List.append_assoc, scan_spell_append hfits]
  generalize Command.scan o (spell items ++ rest) = c at hstops
  cases hstops with
  | unnamed _ => exact .inl ⟨items, List.append_nil _, hfits⟩
  | done _ => exact .inl ⟨items, List.append_nil _, hfits⟩
  | help hcall rest =>
    exact .inr ⟨.help, fun after => (hscan after).trans (Stops.help hcall (rest ++ after)).scan_eq⟩
  -- the only end of reading that another argument would undo
  | nothingBehind => exact absurd (by simp) h
  | bad hbad output verbose check help rest =>
    exact .inr ⟨_, fun after =>
      (hscan after).trans (Stops.bad hbad output verbose check help (rest ++ after)).scan_eq⟩

/-- A flag that is not taken for an output name has no effect. -/
theorem effect_scan_insert (files : Files) (o : Options) {flag : String}
    (hflag : flag = "-v" ∨ flag = "--check") {before : List String}
    (h : before.getLast? ≠ some "-o") (after : List String) :
    (Command.scan o (before ++ flag :: after)).effect files =
      (Command.scan o (before ++ after)).effect files := by
  rcases spelled_or_scan_const o h with ⟨items, rfl, hfits⟩ | ⟨c, hc⟩
  · rw [scan_spell_append hfits, scan_spell_append hfits]
    rcases hflag with rfl | rfl
    · rw [scan_cons (by decide), if_pos rfl]
      refine effect_scan_congr files ?_ ?_ after <;> rfl
    · rw [scan_cons (by decide), if_neg (by decide), if_pos rfl]
      refine effect_scan_congr files ?_ ?_ after <;> rfl
  · rw [hc, hc]

/-- No arguments at all leave the same as arguments without an input name. -/
theorem effect_ofArgs (files : Files) (args : List String) :
    (Command.ofArgs args).effect files = (Command.scan .default args).effect files := by
  cases args <;> rfl

/-- **The flags reach the log only.** Wherever a flag is put in, unless it would be taken for the name
of the output file, the exit code, standard output and the written file stay as they are. The check that
one of them asks for has no influence since it never fails. -/
theorem run_insert_flag (files : Files) (flag : String) (before after : List String)
    (hflag : flag = "-v" ∨ flag = "--check") (hplace : before.getLast? ≠ some "-o") :
    (run files (before ++ flag :: after)).exitCode = (run files (before ++ after)).exitCode ∧
    (run files (before ++ flag :: after)).output = (run files (before ++ after)).output ∧
    (run files (before ++ flag :: after)).file = (run files (before ++ after)).file ∧
    ∀ o ts fault, checkRows o (TwoTape.conflict? ts) (reduce ts) ≠ .error fault := by
  have heffect : (run files (before ++ flag :: after)).effect =
      (run files (before ++ after)).effect := by
    rw [effect_run, effect_run, effect_ofArgs, effect_ofArgs,
      effect_scan_insert files .default hflag hplace]
  refine ⟨congrArg Effect.exitCode heffect, congrArg Effect.output heffect,
    congrArg Effect.file heffect, fun o ts fault hfault => ?_⟩
  obtain ⟨log, hlog⟩ := checkRows_reduce o ts
  rw [hlog] at hfault
  cases hfault

theorem run_insert_flag_misleading :
    ["", "-o", "x"].getLast? ≠ some "-o" ∧
    (run oneListing ["", "-o", "x", "--check", "m", "-o", "-v"]).exitCode =
      (run oneListing ["", "-o", "x", "m", "-o", "-v"]).exitCode ∧
    (run oneListing ["", "-o", "x", "--check", "m", "-o", "-v"]).file =
      (run oneListing ["", "-o", "x", "m", "-o", "-v"]).file := by
  have hplace : ["", "-o", "x"].getLast? ≠ some "-o" := by decide
  obtain ⟨hexit, -, hfile, -⟩ :=
    run_insert_flag oneListing "--check" ["", "-o", "x"] ["m", "-o", "-v"] (.inr rfl) hplace
  exact ⟨hplace, hexit, hfile⟩

/-- A flag behind `-o` is a name. -/
example : (run oneListing ["m", "-o", "x"]).exitCode = 0 ∧
    (run oneListing ["m", "-o", "-v", "x"]).exitCode = 1 := by
  decide +kernel

end Multitrack.CommandLine
