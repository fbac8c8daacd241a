-- SUMMARY: A watch reacts once to each change that makes new contents, and to nothing else.
import RelaxedJson.Proofs.Command.Files
import RelaxedJson.Proofs.Value.KeyMap

/-!
# Watching

`Reacts` says what a watch of given names makes of an occurrence. It does not mention the watch list
or anything that happened earlier: the list of a watch always stands for its names
(`WatchList.Covers`), and reactions do not change it. So a whole run is a reaction to each occurrence
in turn, whatever fails on the way (`runWatch_reacts`).
-/

namespace RelaxedJson.Command

open FileName (clean directory)

/-! ## Names -/

/-- The name given last, of those that are equivalent to `simple`. -/
def lastGiven? (names : List Bytes) (simple : Bytes) : Option Bytes :=
  names.reverse.find? fun given => clean given = simple

theorem lastGiven?_concat (names : List Bytes) (name simple : Bytes) :
    lastGiven? (names ++ [name]) simple =
      if simple = clean name then some name else lastGiven? names simple := by
  unfold lastGiven?
  rw [List.reverse_concat, List.find?_cons]
  by_cases h : simple = clean name
  · simp [h]
  · simp [h, Ne.symm h]

theorem lastGiven?_eq_none_iff {names : List Bytes} {simple : Bytes} :
    lastGiven? names simple = none ↔ ∀ given ∈ names, clean given ≠ simple := by
  simp [lastGiven?]

/-- Behind the name given last there is no other one that is equivalent. -/
theorem lastGiven?_eq_some_iff {names : List Bytes} {simple given : Bytes} :
    lastGiven? names simple = some given ↔
      ∃ front back, names = front ++ given :: back ∧ clean given = simple ∧
        ∀ other ∈ back, clean other ≠ simple := by
  unfold lastGiven?
  rw [List.find?_eq_some_iff_append]
  constructor
  · rintro ⟨hgiven, back, front, hnames, hback⟩
    refine ⟨front.reverse, back.reverse, ?_, of_decide_eq_true hgiven, ?_⟩
    · rw [← List.reverse_reverse names, hnames]
      simp
    · intro other hother
      simpa using hback other (List.mem_reverse.mp hother)
  · rintro ⟨front, back, rfl, hgiven, hback⟩
    refine ⟨decide_eq_true hgiven, back.reverse, front.reverse, by simp, ?_⟩
    intro other hother
    simpa using hback other (List.mem_reverse.mp hother)

/-! ## The watch list -/

namespace WatchList

/-- The list stands for the names: it finds the one given last of those that are equivalent. -/
structure Covers (l : WatchList) (names : List Bytes) : Prop where
  ascending : l.files.Ascending
  mem_keys : ∀ simple, simple ∈ l.files.keys ↔ simple ∈ (names.map clean).toFinset
  lookup : ∀ simple, l.files.lookup simple = lastGiven? names simple

theorem covers_nil : Covers {} [] where
  ascending := List.Pairwise.nil
  mem_keys := by simp
  lookup _ := rfl

variable {fs : FileSystem} {l : WatchList} {names done : List Bytes}

theorem Covers.length_files (h : l.Covers names) :
    l.files.length = (names.map clean).toFinset.card :=
  h.ascending.length_eq_card h.mem_keys

/-- Whatever the directories, a list with another file stands for one name more. -/
theorem Covers.insert (h : l.Covers done) (name : Bytes) (directories : List Bytes) :
    Covers ⟨l.files.insert (clean name) name, directories⟩ (done ++ [name]) where
  ascending := h.ascending.insert _ _
  mem_keys simple := by
    rw [KeyMap.mem_keys_insert, h.mem_keys]
    simp
  lookup simple := by
    rw [KeyMap.lookup_insert, lastGiven?_concat, h.lookup]

theorem Covers.exists_add (h : l.Covers done) {name : Bytes}
    (hdirectory : fs.watchFault? (directory (clean name)) = none) :
    ∃ l', add fs l name = .ok l' ∧ l'.Covers (done ++ [name]) := by
  unfold add
  by_cases hmem : directory (clean name) ∈ l.directories
  · exact ⟨_, if_pos hmem, h.insert name _⟩
  · refine ⟨_, ?_, h.insert name (directory (clean name) :: l.directories)⟩
    simp [hmem, hdirectory]

theorem Covers.exists_foldlM (h : l.Covers done)
    (hdirectories : ∀ name ∈ names, fs.watchFault? (directory (clean name)) = none) :
    ∃ l', names.foldlM (add fs) l = .ok l' ∧ l'.Covers (done ++ names) := by
  induction names generalizing l done with
  | nil => exact ⟨l, rfl, by simpa using h⟩
  | cons name names ih =>
    obtain ⟨hname, hnames⟩ := List.forall_mem_cons.mp hdirectories
    obtain ⟨l₁, hadd, hcovers⟩ := h.exists_add hname
    obtain ⟨l₂, hrest, hcovers⟩ := ih hcovers hnames
    refine ⟨l₂, ?_, by simpa using hcovers⟩
    rw [List.foldlM_cons, hadd]
    exact hrest

/-- Names can be watched whose directories can. -/
theorem exists_ofNames
    (hdirectories : ∀ name ∈ names, fs.watchFault? (directory (clean name)) = none) :
    ∃ l, ofNames fs names = .ok l ∧ l.Covers names :=
  covers_nil.exists_foldlM hdirectories

end WatchList

/-! ## Reactions -/

/-- What a watch of the names makes of an occurrence. -/
inductive Reacts (j : Job) (names : List Bytes) : Occurrence → Report → Prop
  /-- Trouble is mentioned, and nothing is written. -/
  | trouble (message : Bytes) :
    Reacts j names (.trouble message) { logs := [⟨.warning, "watch: ".utf8 ++ message⟩] }
  /-- A change that makes new contents of a file has these processed once, under the name that the
      file was given last. A failure is mentioned and does not count. -/
  | processed {name given : Bytes} {operations : List Operation} {fs : FileSystem}
    {front back : List Bytes} (hrelevant : .create ∈ operations ∨ .write ∈ operations)
    (hnames : names = front ++ given :: back) (hgiven : clean given = clean name)
    (hlast : ∀ other ∈ back, clean other ≠ clean name) :
    Reacts j names (.change name operations fs)
      { stdout := (j.processFile fs given).stdout
        logs := ⟨.debug, given ++ ": ".utf8 ++ operationsText operations⟩ ::
          ((j.processFile fs given).logs ++
            ((j.processFile fs given).failure.map fun e => ⟨.error, e.message⟩).toList) }
  /-- Any other change is left alone. -/
  | ignored {name : Bytes} {operations : List Operation} {fs : FileSystem}
    (h : .create ∈ operations ∨ .write ∈ operations →
      ∀ given ∈ names, clean given ≠ clean name) :
    Reacts j names (.change name operations fs) {}

theorem Reacts.failure_eq_none {j : Job} {names : List Bytes} {o : Occurrence} {r : Report}
    (h : Reacts j names o r) : r.failure = none := by
  cases h <;> rfl

/-- There is one thing only that a watch makes of an occurrence. -/
theorem Reacts.unique {j : Job} {names : List Bytes} {o : Occurrence} {r r' : Report}
    (h : Reacts j names o r) (h' : Reacts j names o r') : r = r' := by
  cases h with
  | trouble message =>
    cases h'
    rfl
  | processed hrelevant hnames hgiven hlast =>
    have hsome := lastGiven?_eq_some_iff.mpr ⟨_, _, hnames, hgiven, hlast⟩
    cases h' with
    | processed _ hnames' hgiven' hlast' =>
      have hsome' := lastGiven?_eq_some_iff.mpr ⟨_, _, hnames', hgiven', hlast'⟩
      obtain rfl := Option.some.inj (hsome.symm.trans hsome')
      rfl
    | ignored h' => exact absurd hgiven (h' hrelevant _ (by simp [hnames]))
  | ignored h =>
    cases h' with
    | processed hrelevant hnames hgiven _ =>
      exact absurd hgiven (h hrelevant _ (by simp [hnames]))
    | ignored _ => rfl

namespace Watch

variable {names : List Bytes}

theorem isRelevant_iff {operations : List Operation} :
    isRelevant operations ↔ .create ∈ operations ∨ .write ∈ operations := by
  simp [isRelevant]

/-- One step of a watch: the reaction to an occurrence. -/
theorem reacts (w : Watch) (h : w.list.Covers names) (o : Occurrence) :
    Reacts w.job names o (w.react o) := by
  cases o with
  | trouble message => exact .trouble message
  | change name operations fs =>
    have hmatch : w.list.match? name = lastGiven? names (clean name) := h.lookup (clean name)
    cases hlast : lastGiven? names (clean name) with
    | none =>
      have hignored : Reacts w.job names (.change name operations fs) {} :=
        .ignored fun _ => lastGiven?_eq_none_iff.mp hlast
      simpa [react, hmatch, hlast] using hignored
    | some given =>
      obtain ⟨front, back, hnames, hgiven, hback⟩ := lastGiven?_eq_some_iff.mp hlast
      by_cases hrelevant : isRelevant operations
      · have hprocessed : Reacts w.job names (.change name operations fs) _ :=
          .processed (isRelevant_iff.mp hrelevant) hnames hgiven hback
        simpa [react, hmatch, hlast, hrelevant, Report.logs_logFailure] using hprocessed
      · have hignored : Reacts w.job names (.change name operations fs) {} :=
          .ignored fun h => absurd (isRelevant_iff.mpr h) hrelevant
        simpa [react, hmatch, hlast, hrelevant] using hignored

/-- The watch list is the same for all occurrences, so nothing is left of earlier ones. -/
theorem follow_eq (w : Watch) (occurrences : List Occurrence) :
    w.follow occurrences = (occurrences.map w.react, stop) := by
  induction occurrences with
  | nil => rfl
  | cons o os ih => rw [follow, ih, List.map_cons]

/-- A run of a watch: a reaction to each occurrence in turn. -/
theorem forall₂_reacts (w : Watch) (h : w.list.Covers names) (occurrences : List Occurrence) :
    List.Forall₂ (Reacts w.job names) occurrences (w.follow occurrences).1 := by
  rw [follow_eq]
  induction occurrences with
  | nil => exact .nil
  | cons o os ih => exact .cons (w.reacts h o) ih

end Watch

/-! ## The command line -/

namespace Report

theorem stdout_foldl (rs : List Report) (r : Report) :
    (rs.foldl (· ++ ·) r).stdout = r.stdout ++ rs.flatMap Report.stdout := by
  induction rs generalizing r with
  | nil => simp
  | cons a rs ih => simp [ih]

theorem failure_foldl {rs : List Report} {r : Report} (hr : r.failure = none)
    (hrs : ∀ a ∈ rs, a.failure = none) : (rs.foldl (· ++ ·) r).failure = none := by
  induction rs generalizing r with
  | nil => exact hr
  | cons a rs ih =>
    obtain ⟨ha, hrs⟩ := List.forall_mem_cons.mp hrs
    exact ih (by simp [hr, ha]) hrs

end Report

variable {read : ArgumentReader} {write : OutputFormat → Writer} {args : List Bytes} {o : Options}
  {j : Job} {names : List Bytes} {fs : FileSystem}

theorem Selects.runWatch (h : Selects read write args o j names) (hwatch : o.watch = true)
    {l : WatchList} (hlist : WatchList.ofNames fs names = .ok l) (stdin : Bytes)
    (occurrences : List Occurrence) :
    runWatch args fs stdin occurrences write read =
      { start := { j.processFiles fs names with failure := none } ++ Watch.ready ⟨j, l⟩
        reactions := occurrences.map (Watch.react ⟨j, l⟩)
        finish := Watch.stop } := by
  have hrequest := h.request
  rw [if_pos hwatch] at hrequest
  simp [Command.runWatch, hrequest, hlist, Request.start, Watch.follow_eq]

/-- However its arguments are read, a command that watches processes its files, says how many
    different ones there are, and reacts to each occurrence in turn until it is stopped. It never
    fails, and the reactions to later occurrences are those of a run without the earlier ones. -/
theorem runWatch_reacts (hargs : Selects read write args o j names) (hwatch : o.watch = true)
    (hdirectories : ∀ name ∈ names, fs.watchFault? (directory (clean name)) = none)
    (stdin : Bytes) (occurrences : List Occurrence) :
    let w := runWatch args fs stdin occurrences write read
    w.start =
        { stdout := names.flatMap fun name => (j.processFile fs name).stdout
          logs := (j.processFiles fs names).logs ++
            [⟨.notice, "watching ".utf8 ++ Bytes.ofNat (names.map clean).toFinset.card ++
              " files".utf8⟩] } ∧
      List.Forall₂ (Reacts j names) occurrences w.reactions ∧
      w.finish = { logs := [⟨.info, "watch stopped".utf8⟩] } ∧
      w.report.stdout = w.start.stdout ++ w.reactions.flatMap Report.stdout ∧
      w.report.failure = none ∧
      ∀ earlier later, occurrences = earlier ++ later →
        w.reactions = (runWatch args fs stdin earlier write read).reactions ++
          (runWatch args fs stdin later write read).reactions := by
  obtain ⟨l, hlist, hcovers⟩ := WatchList.exists_ofNames hdirectories
  have hrun := hargs.runWatch hwatch hlist stdin
  let watch : Watch := ⟨j, l⟩
  have hreacts : List.Forall₂ (Reacts j names) occurrences (occurrences.map watch.react) := by
    simpa [Watch.follow_eq] using watch.forall₂_reacts hcovers occurrences
  have hfailures : ∀ r ∈ occurrences.map watch.react, r.failure = none := by
    intro r hr
    obtain ⟨o, -, rfl⟩ := List.mem_map.mp hr
    exact (watch.reacts hcovers o).failure_eq_none
  simp only [hrun]
  refine ⟨?_, hreacts, rfl, ?_, ?_, ?_⟩
  · ext1
    · simp [Watch.ready, Job.stdout_processFiles]
    · simp [Watch.ready, hcovers.length_files]
    · rfl
  · simp [WatchRun.report, Report.stdout_foldl, Watch.stop]
  · have hstart : ({ j.processFiles fs names with failure := none } ++ watch.ready).failure = none :=
      rfl
    simpa [WatchRun.report, Watch.stop] using Report.failure_foldl hstart hfailures
  · rintro earlier later rfl
    exact List.map_append

/-- One file under two names: its changes lead to the name given last, and a broken text does not
    end the watch. -/
theorem runWatch_reacts_respelled :
    let files (text : Bytes) := (FileTree.empty.write "a".utf8 text).fileSystem
    let occurrences : List Occurrence :=
      [.change "a".utf8 [.write] (files "[".utf8), .change "a".utf8 [.chmod] (files "[".utf8),
        .trouble "overflow".utf8, .change "../a".utf8 [.write] (files "1".utf8),
        .change ".//a".utf8 [.create] (files "null".utf8)]
    let w := runWatch ["-w".utf8, "a".utf8, "./a".utf8] (files "[]".utf8) [] occurrences
    w.report.stdout = "[]\n[]\nnull\n".utf8 ∧ w.report.failure = none := by
  intro files occurrences w
  have hargs : Selects Options.parse OutputFormat.write ["-w".utf8, "a".utf8, "./a".utf8]
      { watch := true } ⟨.strict, false, Output.json⟩ ["a".utf8, "./a".utf8] :=
    ⟨by cbv, rfl, rfl, nofun⟩
  have hdirectories : ∀ name ∈ ["a".utf8, "./a".utf8],
      (files "[]".utf8).watchFault? (directory (clean name)) = none := by decide +kernel
  obtain ⟨-, -, -, hstdout, hfailure, -⟩ :=
    runWatch_reacts hargs rfl hdirectories [] occurrences
  refine ⟨hstdout.trans ?_, hfailure⟩
  cbv

end RelaxedJson.Command
