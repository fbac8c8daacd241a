-- SUMMARY: What the command writes as JSON is read as the sequence of the values of its files.
import RelaxedJson.Proofs.Command.Files
import RelaxedJson.Proofs.Value.Lines
import RelaxedJson.Proofs.Value.RoundTrip

/-!
# Documents

Files that are written as JSON become lines, a line for each file that has a value. A line is read
back as the value that it was written for, and lines are read one after the other. So the output of
the command is a sequence of documents again: the values of the files that have one, in the order of
the arguments (`parseAll_run`).
-/

namespace RelaxedJson.Command

/-- The value of a file, if it can be read and has one. -/
def FileSystem.value? (fs : FileSystem) (d : Dialect) (name : Bytes) : Option Value :=
  match fs.read name with
  | .error _ => none
  | .ok text =>
    match Value.parse d text with
    | .error _ => none
    | .ok v    => some v

theorem FileSystem.value?_eq_some_iff {fs : FileSystem} {d : Dialect} {name : Bytes} {v : Value} :
    fs.value? d name = some v ↔ ∃ text, fs.read name = .ok text ∧ Value.parse d text = .ok v := by
  unfold value?
  cases fs.read name with
  | error fault => simp
  | ok text =>
    cases hparse : Value.parse d text with
    | error e => simp [hparse]
    | ok w => simp [hparse]

namespace Job

variable {j : Job} {fs : FileSystem}

theorem stdout_processText (htokens : j.tokens = false) (name text : Bytes) :
    (j.processText name text).stdout =
      match Value.parse j.dialect text with
      | .error _ => []
      | .ok v    => (j.write v).output := by
  cases hscan : Token.scan j.dialect text with
  | error e => simp [processText, Value.parse, hscan]
  | ok ts =>
    have hparse : Value.parse j.dialect text = Value.ofTokens j.dialect ts := by
      simp [Value.parse, hscan]
    rw [hparse]
    cases hvalue : Value.ofTokens j.dialect ts with
    | ok v => simp [processText, processTokens, hscan, htokens, hvalue, writeValue]
    | error e => cases e <;> simp [processText, processTokens, hscan, htokens, hvalue]

/-- A file that has a value is written as the writer has it, and nothing else is. -/
theorem stdout_processFile (htokens : j.tokens = false) (name : Bytes) :
    (j.processFile fs name).stdout =
      match fs.value? j.dialect name with
      | none   => []
      | some v => (j.write v).output := by
  cases hread : fs.read name with
  | error fault => simp [processFile, FileSystem.value?, hread]
  | ok text =>
    have hstdout := stdout_processText htokens name text
    cases hparse : Value.parse j.dialect text with
    | error e => simpa [processFile, FileSystem.value?, hread, hparse] using hstdout
    | ok v => simpa [processFile, FileSystem.value?, hread, hparse] using hstdout

/-- Written as JSON, files are a line for each value. -/
theorem stdout_processFiles_json (htokens : j.tokens = false) (hwrite : j.write = Output.json)
    (names : List Bytes) :
    (j.processFiles fs names).stdout =
      Bytes.lines ((names.filterMap (fs.value? j.dialect)).map Value.json) := by
  rw [stdout_processFiles]
  induction names with
  | nil => rfl
  | cons name names ih =>
    rw [List.flatMap_cons, ih, stdout_processFile htokens, List.filterMap_cons]
    cases fs.value? j.dialect name with
    | none => rfl
    | some v => simp [Bytes.lines, hwrite, Output.json]

end Job

/-- The output of the command as JSON is a sequence of documents: in strict JSON it is read, without
    a fault, as the values of those files that can be read and have one, in the order of the
    arguments. -/
theorem parseAll_run {read : ArgumentReader} {args : List Bytes} {o : Options} {j : Job}
    {names : List Bytes} (hargs : Selects read OutputFormat.write args o j names)
    (hwatch : o.watch = false) (htokens : o.tokens = false) (hformat : o.format = "json".utf8)
    (fs : FileSystem) (hutf8 : ∀ name ∈ names, ∀ text, fs.read name = .ok text → text.isUtf8)
    (stdin : Bytes) (keeps : Int → Level → Bool) :
    Value.parseAll { Dialect.strict with maxDepth := o.dialect.maxDepth }
        (run args fs stdin OutputFormat.write read keeps).stdout =
      (names.filterMap (fs.value? o.dialect), none) := by
  have hjob : o.job = .ok ⟨o.dialect, false, Output.json⟩ := by
    simp [Options.job, hformat, htokens, OutputFormat.ofName?, OutputFormat.write]
  obtain rfl : j = ⟨o.dialect, false, Output.json⟩ := Except.ok.inj (hargs.job.symm.trans hjob)
  rw [hargs.run hwatch fs stdin keeps, Report.ending, Job.stdout_processFiles_json rfl rfl]
  apply Value.parseAll_lines
  rw [List.map_map]
  apply List.map_congr_left
  intro v hv
  obtain ⟨name, hname, hvalue⟩ := List.mem_filterMap.mp hv
  obtain ⟨text, hread, hparse⟩ := FileSystem.value?_eq_some_iff.mp hvalue
  exact Value.parse_json_of_depthLimit_le (hutf8 name hname text hread) hparse le_rfl

/-- One file is given twice, another one is missing, and a third one holds no value. -/
theorem parseAll_run_repeated :
    let files : FileSystem :=
      { read := fun name =>
          if name = "a".utf8 then .ok "[]//".utf8
          else if name = "b".utf8 then .ok "[".utf8
          else .error .missing
        watchFault? := fun _ => none }
    Value.parseAll .strict
        (run ["a".utf8, "gone".utf8, "b".utf8, "a".utf8, "--comments".utf8] files []).stdout =
      ([.array [], .array []], none) := by
  intro files
  have hargs : Selects Options.parse OutputFormat.write
      ["a".utf8, "gone".utf8, "b".utf8, "a".utf8, "--comments".utf8] { comments := true }
      ⟨{ comments := true, tabWidth := 4 }, false, Output.json⟩
      ["a".utf8, "gone".utf8, "b".utf8, "a".utf8] := ⟨by cbv, rfl, rfl, nofun⟩
  have hutf8 : ∀ name ∈ ["a".utf8, "gone".utf8, "b".utf8, "a".utf8],
      (files.read name).toOption.all Bytes.isUtf8 := by decide +kernel
  have hall := parseAll_run hargs rfl rfl rfl files
    (fun name hname text hread => by simpa [hread, Except.toOption] using hutf8 name hname) []
    Level.isKept
  refine hall.trans ?_
  cbv

end RelaxedJson.Command
