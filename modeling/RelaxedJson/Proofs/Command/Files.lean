-- SUMMARY: Files are processed independently of each other.
import Mathlib
import RelaxedJson.Command.Watch

/-!
# Files

Reports are a monoid under appending, and files processed in order leave behind the reports of the
single files one after the other (`Job.processFiles_append`). So nothing that is written or logged
about a file depends on the other files, and the failure of a run is that of the first file that
fails (`run_append`). All of this holds however arguments are read and formats are written, and
whatever levels of messages are kept.
-/

namespace RelaxedJson.Command

/-! ## Reports -/

attribute [ext] Report

namespace Report

@[simp] theorem stdout_append (a b : Report) : (a ++ b).stdout = a.stdout ++ b.stdout := rfl
@[simp] theorem logs_append (a b : Report) : (a ++ b).logs = a.logs ++ b.logs := rfl
@[simp] theorem failure_append (a b : Report) :
    (a ++ b).failure = (a.failure <|> b.failure) := rfl

@[simp] theorem empty_append (r : Report) : {} ++ r = r := by
  ext1 <;> simp

theorem append_assoc (a b c : Report) : a ++ b ++ c = a ++ (b ++ c) := by
  ext1
  · exact List.append_assoc ..
  · exact List.append_assoc ..
  · cases hfailure : a.failure <;> simp [hfailure]

@[simp] theorem stdout_logFailure (r : Report) : r.logFailure.stdout = r.stdout := by
  unfold logFailure
  split <;> rfl

@[simp] theorem failure_logFailure (r : Report) : r.logFailure.failure = r.failure := by
  unfold logFailure
  split <;> rfl

theorem logs_logFailure (r : Report) :
    r.logFailure.logs =
      r.logs ++ (r.failure.map fun e => ⟨Level.error, e.message⟩).toList := by
  unfold logFailure
  cases r.failure <;> simp

end Report

/-! ## Processing in order -/

namespace Job

variable (j : Job) (fs : FileSystem)

/-- Files in front of others leave the same behind as on their own. -/
theorem processFiles_append (names more : List Bytes) :
    j.processFiles fs (names ++ more) = j.processFiles fs names ++ j.processFiles fs more := by
  induction names with
  | nil => simp [processFiles]
  | cons name names ih =>
    rw [List.cons_append, processFiles, processFiles, ih, Report.append_assoc]

theorem stdout_processFiles (names : List Bytes) :
    (j.processFiles fs names).stdout = names.flatMap fun name => (j.processFile fs name).stdout := by
  induction names with
  | nil => rfl
  | cons name names ih => simp [processFiles, ih]

theorem failure_processFiles (names : List Bytes) :
    (j.processFiles fs names).failure =
      names.findSome? fun name => (j.processFile fs name).failure := by
  induction names with
  | nil => rfl
  | cons name names ih =>
    rw [processFiles, Report.failure_append, Report.failure_logFailure, ih, List.findSome?_cons]
    cases (j.processFile fs name).failure <;> rfl

end Job

/-! ## The command line -/

/-- The arguments give options and the names of files, of which there are some, and the options
    select a job. -/
structure Selects (read : ArgumentReader) (write : OutputFormat → Writer) (args : List Bytes)
    (o : Options) (j : Job) (names : List Bytes) : Prop where
  arguments : read args = .ok (o, names)
  help : o.help = false
  job : o.job write = .ok j
  nonempty : names ≠ []

namespace Selects

variable {read : ArgumentReader} {write : OutputFormat → Writer} {args : List Bytes} {o : Options}
  {j : Job} {names : List Bytes}

theorem request (h : Selects read write args o j names) :
    Request.ofArguments args write read =
      (if o.watch then .watch j names else .files j names, o.verbosity) := by
  obtain ⟨name, names, rfl⟩ := List.exists_cons_of_ne_nil h.nonempty
  simp only [Request.ofArguments, h.arguments, h.help, h.job]
  cases o.watch <;> rfl

/-- Without a watch, the command processes the files and ends. -/
theorem run (h : Selects read write args o j names) (hwatch : o.watch = false) (fs : FileSystem)
    (stdin : Bytes) (keeps : Int → Level → Bool) :
    run args fs stdin write read keeps = (j.processFiles fs names).ending o.verbosity keeps := by
  have hrequest := h.request
  rw [hwatch, if_neg Bool.false_ne_true] at hrequest
  have hreport : (runWatch args fs stdin [] write read).report = j.processFiles fs names := by
    ext1 <;> simp [runWatch, hrequest, Request.start, WatchRun.report]
  rw [Command.run, hreport, hrequest]

end Selects

theorem Report.exitCode_eq_zero_iff (r : Report) (verbosity : Int) (keeps : Int → Level → Bool) :
    (r.ending verbosity keeps).exitCode = 0 ↔ r.failure = none := by
  cases hfailure : r.failure <;> simp [ending, hfailure]

/-- Files are processed independently of each other: a run on more files leaves behind what runs on
    the former and on the latter files leave behind. It fails exactly if one of them does, with the
    failure of the first file that fails, and fails in no other way. -/
theorem run_append {read : ArgumentReader} {write : OutputFormat → Writer}
    {args argsA argsB : List Bytes} {o : Options} {j : Job} {A B : List Bytes}
    (hboth : Selects read write args o j (A ++ B)) (hA : Selects read write argsA o j A)
    (hB : Selects read write argsB o j B) (hwatch : o.watch = false) (fs : FileSystem)
    (stdin : Bytes) (keeps : Int → Level → Bool) :
    let both := run args fs stdin write read keeps
    let a := run argsA fs stdin write read keeps
    let b := run argsB fs stdin write read keeps
    both.stdout = a.stdout ++ b.stdout ∧
      both.logs = a.logs ++ b.logs ∧
      (both.exitCode = 0 ↔ a.exitCode = 0 ∧ b.exitCode = 0) ∧
      both.failure = (a.failure <|> b.failure) ∧
      both.stderr = (if a.exitCode = 0 then b.stderr else a.stderr) ∧
      both.stdout = ((A ++ B).flatMap fun name => (j.processFile fs name).stdout) ∧
      both.failure = (A ++ B).findSome? fun name => (j.processFile fs name).failure := by
  rw [hboth.run hwatch fs stdin keeps, hA.run hwatch fs stdin keeps, hB.run hwatch fs stdin keeps]
  have happend := j.processFiles_append fs A B
  refine ⟨?_, ?_, ?_, ?_, ?_, j.stdout_processFiles fs _, j.failure_processFiles fs _⟩
  · simp [Report.ending, happend]
  · simp [Report.ending, happend, keepLogs]
  · simp [Report.exitCode_eq_zero_iff, happend]
  · simp [Report.ending, happend]
  · cases hfailure : (j.processFiles fs A).failure <;> simp [Report.ending, happend, hfailure]

/-- A file that is missing does not keep the file behind it from being written. -/
theorem run_append_missing :
    let files := (FileTree.empty.write "a".utf8 "[null,]".utf8).fileSystem
    let both := run ["gone".utf8, "--trailing-commas".utf8, "a".utf8] files []
    both.stdout = "[null]\n".utf8 ∧ both.failure = some (.unopenable "gone".utf8 .missing) := by
  have hselects : ∀ args names, Options.parse args = .ok ({ trailingCommas := true }, names) →
      names ≠ [] → Selects Options.parse OutputFormat.write args { trailingCommas := true }
        ⟨{ trailingCommas := true, tabWidth := 4 }, false, Output.json⟩ names :=
    fun _ _ hparse hnames => ⟨hparse, rfl, rfl, hnames⟩
  have hboth := hselects ["gone".utf8, "--trailing-commas".utf8, "a".utf8]
    (["gone".utf8] ++ ["a".utf8]) (by cbv) (List.cons_ne_nil _ _)
  have hgone := hselects ["--trailing-commas".utf8, "gone".utf8] ["gone".utf8] (by cbv)
    (List.cons_ne_nil _ _)
  have ha := hselects ["--trailing-commas".utf8, "a".utf8] ["a".utf8] (by cbv)
    (List.cons_ne_nil _ _)
  obtain ⟨-, -, -, -, -, hstdout, hfailure⟩ := run_append hboth hgone ha rfl
    (FileTree.empty.write "a".utf8 "[null,]".utf8).fileSystem [] Level.isKept
  refine ⟨hstdout.trans ?_, hfailure.trans ?_⟩
  · cbv
  · cbv

end RelaxedJson.Command
