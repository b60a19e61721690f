import StakingElection.Proofs.Store
import StakingElection.Proofs.Tables

/-!
# What the program makes of stored states

Each stage of a transformation is run once and for all: the states that are there are loaded in
order (`Runner.run_loadAll`), the store is left as it was found (`Runner.run_session`), and the rows
that an analysis appends become the text of a new file (`Runner.run_withTable_of_isNew`). Where
neither stage ends early, a call of the program gives one row for each request that comes to one,
and an exit code that counts the others.

Two things end a stage early. A load that fails in a way that a run does not expect, as for a text
that is no export, ends the whole call before there is a table (`Runner.Call.run_of_stop`). A row
with a number that is too long for a text ends the table at that row
(`Runner.Call.run_operation`). Both are accounted for in `Runner.Call.rows_and_exit_code`.
-/

namespace StakingElection

namespace Task

variable {σ α : Type}

/-- A task whose answer is made into another one. -/
theorem run_bind_map {β : Type} {t : Task σ α} {f : α → Task σ β} {g : α → β} {s s' : σ}
    {j j' : Journal} {result : Except Failure α} (h : t.run s j = ⟨result, s', j'⟩)
    (hf : ∀ a, f a = pure (g a)) : (t >>= f).run s j = ⟨result.map g, s', j'⟩ := by
  cases result with
  | error e => exact run_bind_error h
  | ok a =>
    rw [run_bind_ok h, hf]
    rfl

theorem run_closing (t : Task σ α) (f : σ → σ) (s : σ) (j : Journal) :
    (closing t (modify f)).run s j =
      ⟨(t.run s j).result, f (t.run s j).state, (t.run s j).journal⟩ := by
  rw [closing, run_bind_ok (run_attempt t s j), run_bind_modify, run_ofExcept]
  cases (t.run s j).result <;> rfl

end Task

/-! ## Loading -/

/-- What is stored under some hashes has no negative stake, as far as it can be loaded, and no text
that is stored there has a surrogate without its pair, of which nothing is said
(`Json.Reason.loneSurrogate`). -/
structure Archive.Sound (a : Archive) (hashes : List String) : Prop where
  solvent : ∀ hash ∈ hashes, ∀ s, a.fetch hash = .ok s → s.Solvent
  unicode : ∀ hash ∈ hashes, ∀ fault, a.fetch hash = .error (.json fault) →
    fault.reason ≠ .loneSurrogate

theorem Archive.sound_of_fetch {a : Archive} {hashes : List String} (h : ∀ hash ∈ hashes,
    (∃ s, a.fetch hash = .ok s ∧ s.Solvent) ∨ ∃ e, a.fetch hash = .error e ∧
      ∀ fault, e = .json fault → fault.reason ≠ .loneSurrogate) : a.Sound hashes := by
  refine ⟨fun hash hmem s hs => ?_, fun hash hmem fault hfault => ?_⟩
  · rcases h hash hmem with ⟨t, ht, hsolvent⟩ | ⟨e, he, -⟩
    · rwa [Except.ok.inj (hs.symm.trans ht)]
    · rw [he] at hs
      cases hs
  · rcases h hash hmem with ⟨t, ht, -⟩ | ⟨e, he, hunicode⟩
    · rw [ht] at hfault
      cases hfault
    · exact hunicode fault (Except.error.inj (he.symm.trans hfault))

theorem Archive.moderate_of_fetch {a : Archive} {hash : String} {s : StakingState}
    (h : a.fetch hash = .ok s) : s.Moderate := by
  unfold fetch at h
  split at h
  · cases h
  · obtain ⟨raw, hraw, hs⟩ := bind_eq_ok_iff_exists.mp h
    exact (StakingState.moderate_ofValue
      (Json.legible_of_parse (mapError_eq_ok_iff.mp hraw)) hs).1

namespace Runner

open Analysis (Operation Config Row Table)

variable {st : Store} {archive : Archive} {hashes : List String} {path : String} {α : Type}

/-- A failure to load that a run does not get over. -/
def stopOf : Except Failure StakingState → Option Failure
  | .ok _ => none
  | .error e => if e.isAnalysis then none else some e

/-- What loading comes to: the states that are there and the number of the others, unless a failure
stops it. -/
def gathered (fetch : String → Except Failure StakingState) (hashes : List String) :
    Except Failure (List StakingState × Nat) :=
  match hashes.findSome? fun hash => stopOf (fetch hash) with
  | some e => .error e
  | none => .ok (successes fetch hashes, failures fetch hashes)

theorem gathered_cons_ok {fetch : String → Except Failure StakingState} {hash : String}
    {s : StakingState} (h : fetch hash = .ok s) (hashes : List String) :
    gathered fetch (hash :: hashes) =
      (gathered fetch hashes).map fun (states, count) => (s :: states, count) := by
  have hgoes : stopOf (fetch hash) = none := by rw [h, stopOf]
  rw [gathered, List.findSome?_cons, hgoes, successes_cons_ok h, failures_cons_ok h, gathered]
  cases hashes.findSome? fun hash => stopOf (fetch hash) <;> rfl

theorem gathered_cons_error {fetch : String → Except Failure StakingState} {hash : String}
    {e : Failure} (h : fetch hash = .error e) (he : e.isAnalysis = true) (hashes : List String) :
    gathered fetch (hash :: hashes) =
      (gathered fetch hashes).map fun (states, count) => (states, count + 1) := by
  have hgoes : stopOf (fetch hash) = none := by rw [h, stopOf, if_pos he]
  rw [gathered, List.findSome?_cons, hgoes, successes_cons_error h, failures_cons_error h, gathered]
  cases hashes.findSome? fun hash => stopOf (fetch hash) <;> rfl

theorem gathered_cons_stop {fetch : String → Except Failure StakingState} {hash : String}
    {e : Failure} (h : fetch hash = .error e) (he : e.isAnalysis = false) (hashes : List String) :
    gathered fetch (hash :: hashes) = .error e := by
  have hstops : stopOf (fetch hash) = some e := by
    rw [h, stopOf, he, if_neg Bool.false_ne_true]
  rw [gathered, List.findSome?_cons, hstops]

/-- The states that are there are loaded in order, and the others counted, until one stops it. -/
theorem run_loadAll (hopen : st.isOpen = true) (hashes : List String) (j : Journal) :
    ∃ j', (loadAll (hashes.map .text)).run st j =
      ⟨gathered st.archive.fetch hashes, st, j'⟩ := by
  induction hashes generalizing j with
  | nil => exact ⟨j, rfl⟩
  | cons hash hashes ih =>
    have hattempt : (Task.attempt (Store.loadGiven (.text hash))).run st j =
        ⟨.ok (st.archive.fetch hash), st, j⟩ := by
      rw [Task.run_attempt, Store.loadGiven, Store.run_load hopen]
    rw [List.map_cons, loadAll, Task.run_bind_ok hattempt]
    cases hfetch : st.archive.fetch hash with
    | ok s =>
      obtain ⟨j', hrest⟩ := ih j
      rw [gathered_cons_ok hfetch]
      exact ⟨j', Task.run_bind_map hrest fun _ => rfl⟩
    | error e =>
      cases he : e.isAnalysis with
      | true =>
        obtain ⟨j', hrest⟩ := ih (j.push _)
        rw [gathered_cons_error hfetch he]
        simp only [he, Bool.not_true, Bool.false_eq_true, if_false]
        rw [Task.run_bind_log]
        exact ⟨j', Task.run_bind_map hrest fun _ => rfl⟩
      | false =>
        rw [gathered_cons_stop hfetch he]
        simp only [he, Bool.not_false, if_true]
        exact ⟨j, Task.run_bind_error rfl⟩

/-! ## Sessions -/

/-- The archive that is opened at a path, and the disk from then on. -/
def storeAt (d : Disk) (path : String) : Except Failure (Archive × Disk) :=
  if Store.isTransient path then .ok (.empty, d)
  else do
    let opened ← d.openArchive path
    return (opened.archive, opened.disk.put opened.place (.archive opened.archive))

theorem run_start (htransient : Store.isTransient path = true → archive = .empty)
    (hversion : archive.version ≤ schemaVersion) (j : Journal) :
    ∃ j', Store.start.run (Store.closedAt path archive) j =
      ⟨.ok (), ⟨path, archive, true⟩, j'⟩ := by
  have harchive : (if Store.isTransient (Store.closedAt path archive).path then Archive.empty
      else (Store.closedAt path archive).archive) = archive := by
    split
    · next h => exact (htransient h).symm
    · rfl
  unfold Store.start
  rw [Task.run_bind_get]
  dsimp only
  rw [harchive, if_neg (not_lt.mpr hversion)]
  exact ⟨_, rfl⟩

/-- A task that only reads a store leaves its archive as it was when it is closed. -/
theorem run_session {t : Task Store α} {r : Except Failure α}
    (htransient : Store.isTransient path = true → archive = .empty)
    (hversion : archive.version ≤ schemaVersion)
    (ht : ∀ j, ∃ j', t.run ⟨path, archive, true⟩ j = ⟨r, ⟨path, archive, true⟩, j'⟩)
    (j : Journal) :
    ∃ j', (session t).run (Store.closedAt path archive) j =
      ⟨r, Store.closedAt path archive, j'⟩ := by
  obtain ⟨j₁, hstart⟩ := run_start htransient hversion j
  obtain ⟨j₂, hrun⟩ := ht j₁
  refine ⟨j₂, ?_⟩
  rw [session, Task.run_bind_ok hstart, Store.close, Task.run_closing, hrun]
  rfl

theorem run_withStore {w : World} {disk : Disk} {t : Task Store α} {r : Except Failure α}
    (hstore : storeAt w.disk path = .ok (archive, disk))
    (hversion : archive.version ≤ schemaVersion)
    (ht : ∀ j, ∃ j', t.run ⟨path, archive, true⟩ j = ⟨r, ⟨path, archive, true⟩, j'⟩)
    (j : Journal) : ∃ j', (withStore path t).run w j = ⟨r, w.withDisk disk, j'⟩ := by
  unfold storeAt at hstore
  unfold withStore
  split at hstore
  · next htransient =>
    obtain ⟨rfl, rfl⟩ := Prod.mk.inj (Except.ok.inj hstore)
    obtain ⟨j', hsession⟩ := run_session (fun _ => rfl) hversion ht j
    rw [if_pos htransient, Task.run_zoom, hsession]
    exact ⟨j', rfl⟩
  · next hfile =>
    obtain ⟨opened, hopened, hstore⟩ := bind_eq_ok_iff_exists.mp hstore
    obtain ⟨rfl, rfl⟩ := Prod.mk.inj (Except.ok.inj hstore)
    obtain ⟨j', hsession⟩ := run_session (fun h => absurd h hfile) hversion ht j
    rw [if_neg hfile, Task.run_bind_get, hopened, Task.run_bind_ofExcept_ok, Task.run_zoom,
      hsession]
    exact ⟨j', rfl⟩

variable {w : World} {out : String}

/-! ## The commands -/

section analyse

variable {s : Settings} {a : AnalysisSettings} {op : Operation} {config : Config}
  {states : List StakingState}

/-- States are analysed one by one, each for its own row. The numbers of the analysis do not count
where there is no state. -/
theorem run_analyse {c : Int} (hout : readText s .paths "output_path" = .ok out)
    (ha : a.config = .ok config) (hc : config.coefficient = .whole c) (hop : op ≠ .ledgerChecks)
    (hmoderate : ∀ s ∈ states, s.Moderate) (hsolvent : ∀ s ∈ states, s.Solvent)
    (hnew : IsNew w.disk out) :
    ∃ disk, disk.text? out =
        .ok (Table.textOf (successes (Analysis.outcome op config) states)) ∧
      ∀ j, ∃ j', (analyse s op a states).run w j =
        ⟨Analysis.ending (successes (Analysis.outcome op config) states)
          (failures (Analysis.outcome op config) states), w.withDisk disk, j'⟩ := by
  have hall (used : Config) : Analysis.run op states used = Analysis.runAll op used states := by
    cases op with
    | ledgerChecks => exact absurd rfl hop
    | minActiveStake => rfl
    | electionAnalysis => rfl
  have htable : (tableAt w.disk out).obstacle? = none := by
    rw [tableAt_of_isNew hnew]
    rfl
  unfold analyse
  rw [hout]
  by_cases hnone : states = []
  · subst hnone
    obtain ⟨disk, htext, hrun⟩ := run_withTable_of_isNew
      (t := Analysis.runAll op .standard []) hnew [] fun j => ⟨j, rfl⟩
    rw [← hall] at hrun
    refine ⟨disk, htext, fun j => ?_⟩
    rw [Task.run_bind_ofExcept_ok, if_pos (by simp), Task.run_bind_pure]
    exact hrun j
  · obtain ⟨disk, htext, hrun⟩ := run_withTable_of_isNew hnew _ (Analysis.run_runAll
      (fun s hs => Analysis.comesTo_rowOf (hmoderate s hs) (hsolvent s hs) hc op) htable)
    rw [← hall] at hrun
    refine ⟨disk, htext, fun j => ?_⟩
    rw [Task.run_bind_ofExcept_ok, if_neg (by simp [hop, hnone]), ha, Task.run_bind_ofExcept_ok]
    exact hrun j

/-- The ledger checks take all states at once and write nothing. -/
theorem run_analyse_ledgerChecks (states : List StakingState)
    (hout : readText s .paths "output_path" = .ok out)
    (hnew : IsNew w.disk out) :
    ∃ disk, disk.text? out = .ok none ∧ ∀ j, ∃ j', (analyse s .ledgerChecks a states).run w j =
      ⟨.ok (failures Analysis.report [states]), w.withDisk disk, j'⟩ := by
  obtain ⟨disk, htext, hrun⟩ :=
    run_withTable_of_isNew hnew [] (Analysis.run_runLedgerChecks states _)
  refine ⟨disk, htext, fun j => ?_⟩
  rw [analyse, hout, Task.run_bind_ofExcept_ok, if_pos (by simp), Task.run_bind_pure]
  exact hrun j

end analyse

/-- Nothing fails in loading and checking exactly if all states are there and have a report. -/
theorem failures_report_eq_zero_iff {fetch : String → Except Failure StakingState} :
    failures fetch hashes + failures Analysis.report [successes fetch hashes] = 0 ↔
      ∃ states, hashes.mapM fetch = .ok states ∧ ∃ report, Analysis.report states = .ok report := by
  rw [Nat.add_eq_zero_iff, failures_eq_zero_iff (l := [_]), List.forall_mem_singleton]
  constructor
  · rintro ⟨hnone, hreport⟩
    exact ⟨_, mapM_eq_ok_iff_failures.mpr ⟨hnone, rfl⟩, hreport⟩
  · rintro ⟨states, hstates, hreport⟩
    obtain ⟨hnone, rfl⟩ := mapM_eq_ok_iff_failures.mp hstates
    exact ⟨hnone, hreport⟩

/-! ## Calls of the program -/

/-- A call of the program that transforms stored states to a new file: what its arguments and its
settings ask for, and what it finds in the world once its log is set up. -/
structure Call (args : List String) (w : World) where
  arguments : CommandLine.Arguments
  command : CommandLine.Transform
  settings : Settings
  analysis : AnalysisSettings
  config : Config
  coefficient : Int
  hashes : List String
  storePath : String
  tablePath : String
  ready : World
  archive : Archive
  disk : Disk
  read : CommandLine.Arguments.read args = .ok arguments
  transforms : arguments.command = .transform command
  stored : command.live = false
  requested : command.hashes = hashes.map .text
  nonempty : hashes ≠ []
  loaded : loadSettings w arguments = .ok settings
  analysed : settings.analysis = .ok analysis
  configured : analysis.config = .ok config
  whole : config.coefficient = .whole coefficient
  storeSet : readText settings .paths "snapshot_path" = .ok storePath
  tableSet : readText settings .paths "output_path" = .ok tablePath
  logged : ∀ j, (setUpLog settings).run w j = ⟨.ok (), ready, j⟩
  opened : storeAt ready.disk storePath = .ok (archive, disk)
  version : archive.version ≤ schemaVersion
  new : IsNew disk tablePath

namespace Call

variable {args : List String} (call : Call args w)

/-- What is asked for a hash: the row of the state that is stored under it. -/
def row (hash : String) : Except Failure Row := do
  Analysis.outcome call.command.operation call.config (← call.archive.fetch hash)

theorem row_of_fetch_error {hash : String} {e : Failure}
    (h : call.archive.fetch hash = .error e) : call.row hash = .error e := by
  rw [row, h]
  rfl

/-- The first failure to load that no run gets over. -/
def stop? : Option Failure := call.hashes.findSome? fun hash => stopOf (call.archive.fetch hash)

theorem isAnalysis_of_fetch (hstop : call.stop? = none) {hash : String}
    (hmem : hash ∈ call.hashes) {e : Failure} (h : call.archive.fetch hash = .error e) :
    e.isAnalysis = true := by
  have hgoes := List.findSome?_eq_none_iff.mp hstop hash hmem
  rw [h, stopOf] at hgoes
  by_contra hno
  rw [if_neg hno] at hgoes
  cases hgoes

theorem isAnalysis_of_row (hsound : call.archive.Sound call.hashes) (hstop : call.stop? = none)
    {hash : String} (hmem : hash ∈ call.hashes) {e : Failure} (h : call.row hash = .error e) :
    e.isAnalysis = true := by
  cases hfetch : call.archive.fetch hash with
  | error e' =>
    rw [call.row_of_fetch_error hfetch] at h
    exact Except.error.inj h ▸ call.isAnalysis_of_fetch hstop hmem hfetch
  | ok s =>
    rw [row, hfetch] at h
    exact (Analysis.comesTo_rowOf (Archive.moderate_of_fetch hfetch)
      (hsound.solvent hash hmem s hfetch) call.whole _).of_error h

/-- The states are loaded from the store. -/
theorem run_load (j : Journal) :
    ∃ j', (withStore call.storePath (loadAll call.command.hashes)).run call.ready j =
      ⟨gathered call.archive.fetch call.hashes, call.ready.withDisk call.disk, j'⟩ := by
  rw [call.requested]
  exact run_withStore call.opened call.version (run_loadAll rfl call.hashes) j

/-- A transformation loads its states. -/
theorem run_transform_eq (j : Journal) :
    (transform call.settings call.command).run call.ready j =
      (withStore call.storePath (loadAll call.command.hashes) >>= fun (states, count) => do
        let count := count +
          (← analyse call.settings call.command.operation call.analysis states)
        return if count = 0 then 0 else 1).run call.ready j := by
  have hsome : call.command.hashes.isEmpty = false := by
    rw [call.requested, List.isEmpty_eq_false_iff]
    simpa using call.nonempty
  unfold transform
  rw [call.analysed, Task.run_bind_ofExcept_ok]
  simp only [call.stored, hsome, Bool.and_false, Bool.false_eq_true, if_false, call.storeSet]
  rw [Task.run_bind_ofExcept_ok]

theorem run_transform_of_stop {e : Failure} (hstop : call.stop? = some e) (j : Journal) :
    ∃ j', (transform call.settings call.command).run call.ready j =
      ⟨.error e, call.ready.withDisk call.disk, j'⟩ := by
  obtain ⟨j', hload⟩ := call.run_load j
  have hgathered : gathered call.archive.fetch call.hashes = .error e := by
    rw [gathered, ← stop?, hstop]
  rw [hgathered] at hload
  refine ⟨j', ?_⟩
  rw [call.run_transform_eq, Task.run_bind_error hload]

/-- It comes down to an analysis of the states that are loaded. -/
theorem run_transform (hstop : call.stop? = none) {result : Except Failure Nat} {disk : Disk}
    (h : ∀ j, ∃ j', (analyse call.settings call.command.operation call.analysis
      (successes call.archive.fetch call.hashes)).run (call.ready.withDisk call.disk) j =
        ⟨result, call.ready.withDisk disk, j'⟩) (j : Journal) :
    ∃ j', (transform call.settings call.command).run call.ready j =
      ⟨result.map fun count =>
          if failures call.archive.fetch call.hashes + count = 0 then 0 else 1,
        call.ready.withDisk disk, j'⟩ := by
  obtain ⟨j₁, hload⟩ := call.run_load j
  have hgathered : gathered call.archive.fetch call.hashes =
      .ok (successes call.archive.fetch call.hashes, failures call.archive.fetch call.hashes) := by
    rw [gathered, ← stop?, hstop]
  rw [hgathered] at hload
  obtain ⟨j₂, hanalyse⟩ := h j₁
  refine ⟨j₂, ?_⟩
  rw [call.run_transform_eq, Task.run_bind_ok hload]
  exact Task.run_bind_map hanalyse fun _ => rfl

/-- What the program makes of what its command comes to: a failure that is reported is code one. -/
def exitOf : Except Failure Nat → Except Failure Nat
  | .ok code => .ok code
  | .error e => if e.isReported then .ok 1 else .error e

theorem exitOf_map_ending (rows : List Row) (before after : Nat) :
    exitOf ((Analysis.ending rows after).map fun count => if before + count = 0 then 0 else 1) =
      .ok (if rows.all Row.hasText ∧ before + after = 0 then 0 else 1) := by
  unfold Analysis.ending
  by_cases htexts : rows.all Row.hasText
  · simp only [htexts, if_true, true_and]
    rfl
  · rw [if_neg htexts, if_neg fun h => htexts h.1]
    rfl

theorem run_args {result : Except Failure Nat} {w' : World}
    (h : ∀ j, ∃ j', (transform call.settings call.command).run call.ready j = ⟨result, w', j'⟩)
    (j : Journal) : ∃ j', (Runner.run args).run w j = ⟨exitOf result, w', j'⟩ := by
  obtain ⟨j', htransform⟩ := h j
  have hattempt : (Task.attempt (runCommand call.settings call.arguments.command)).run
      call.ready j = ⟨.ok result, w', j'⟩ := by
    rw [call.transforms, runCommand, Task.run_attempt, htransform]
  rw [Runner.run, call.read]
  dsimp only
  rw [Task.run_bind_get, call.loaded, Task.run_bind_ofExcept_ok, Task.run_bind_ok (call.logged j),
    Task.run_bind_ok hattempt]
  cases result with
  | ok code => exact ⟨j', rfl⟩
  | error e =>
    cases he : e.isReported with
    | true =>
      simp only [exitOf, he, Bool.not_true, Bool.false_eq_true, if_false, if_true]
      exact ⟨_, Task.run_bind_log⟩
    | false =>
      simp only [exitOf, he, Bool.not_false, if_true, Bool.false_eq_true, if_false]
      exact ⟨j', Task.run_bind_error rfl⟩

/-- A call that ends before there is a table. -/
theorem run_of_stop {e : Failure} (hstop : call.stop? = some e) (j : Journal) :
    ∃ disk j', (Runner.run args).run w j =
        ⟨if e.isReported then .ok 1 else .error e, call.ready.withDisk disk, j'⟩ ∧
      disk.text? call.tablePath = .ok none := by
  obtain ⟨j', hrun⟩ := call.run_args (call.run_transform_of_stop hstop) j
  exact ⟨call.disk, j', hrun, Disk.text?_of_leads call.new.1⟩

/-- A call for an operation that takes states one by one. -/
theorem run_operation (hsound : call.archive.Sound call.hashes) (hstop : call.stop? = none)
    (hop : call.command.operation ≠ .ledgerChecks) (j : Journal) :
    ∃ disk j', (Runner.run args).run w j =
        ⟨.ok (if (successes call.row call.hashes).all Row.hasText ∧
            failures call.row call.hashes = 0 then 0 else 1), call.ready.withDisk disk, j'⟩ ∧
      disk.text? call.tablePath = .ok (Table.textOf (successes call.row call.hashes)) := by
  have hstates : ∀ s ∈ successes call.archive.fetch call.hashes, s.Moderate ∧ s.Solvent := by
    intro s hs
    obtain ⟨hash, hmem, hfetch⟩ := mem_successes hs
    exact ⟨Archive.moderate_of_fetch hfetch, hsound.solvent hash hmem s hfetch⟩
  obtain ⟨disk, htext, hrun⟩ := run_analyse (w := call.ready.withDisk call.disk) call.tableSet
    call.configured call.whole hop (fun s hs => (hstates s hs).1) (fun s hs => (hstates s hs).2)
    call.new
  obtain ⟨j', hdone⟩ := call.run_args (call.run_transform hstop hrun) j
  rw [exitOf_map_ending, failures_bind, successes_bind] at hdone
  rw [successes_bind] at htext
  exact ⟨disk, j', hdone, htext⟩

/-- A call for the ledger checks. -/
theorem run_ledgerChecks (hstop : call.stop? = none)
    (hop : call.command.operation = .ledgerChecks) (j : Journal) :
    ∃ disk j', (Runner.run args).run w j =
        ⟨.ok (if failures call.archive.fetch call.hashes +
            failures Analysis.report [successes call.archive.fetch call.hashes] = 0 then 0 else 1),
          call.ready.withDisk disk, j'⟩ ∧
      disk.text? call.tablePath = .ok none := by
  have hanalyse := run_analyse_ledgerChecks (a := call.analysis)
    (w := call.ready.withDisk call.disk) (successes call.archive.fetch call.hashes)
    call.tableSet call.new
  rw [← hop] at hanalyse
  obtain ⟨disk, htext, hrun⟩ := hanalyse
  obtain ⟨j', hdone⟩ := call.run_args (call.run_transform hstop hrun) j
  exact ⟨disk, j', hdone, htext⟩

/-! ### Standard settings -/

/-- The arguments that ask for an operation on blocks, with the store in the file `s` and the table
in `o`. -/
def standardArguments (op : Operation) (hashes : List String) : CommandLine.Arguments :=
  ⟨.null, .null, .text "s", .text "o", .null,
    .transform ⟨op, hashes.map .text, .null, .null, false, false, .null, false⟩⟩

/-- A world with a store and nothing else. -/
def storeWorld (archive : Archive) : World :=
  ⟨⟨.ofList [("s", .archive archive)], []⟩, ∅, .ofReplies [] .silent, .initial⟩

theorem analysis_standard (op : Operation) (hashes : List String) :
    (Settings.standard.applyArguments (standardArguments op hashes)).analysis =
      .ok ⟨.seqPhragmen, .int 10, .bool true, .bool false, .proRata, .int 2⟩ := by
  have hmethod : chooseMethod (.text "seq-phragmen") (.int 10) = .ok .seqPhragmen := by cbv
  have hvalues : (Settings.standard.applyArguments (standardArguments op hashes)).value .election
        "solver" = .text "seq-phragmen" ∧
      (Settings.standard.applyArguments (standardArguments op hashes)).value .election
        "iterations" = .int 10 := ⟨rfl, rfl⟩
  rw [Settings.analysis, hvalues.1, hvalues.2, hmethod]
  rfl

theorem run_setUpLog_standard (op : Operation) (hashes : List String) (w : World) (j : Journal) :
    (setUpLog (Settings.standard.applyArguments (standardArguments op hashes))).run w j =
      ⟨.ok (), { w with log := ⟨20, .human, none⟩ }, j⟩ := by
  have hsetup : setupOf (.text "INFO") (.text "human") .null = .ok ⟨20, .human, none⟩ := by cbv
  change (Task.ofExcept id (setupOf (.text "INFO") (.text "human") .null) >>= _).run w j = _
  rw [hsetup]
  rfl

/-- The call that such arguments make in such a world. -/
def ofStore {args : List String} {archive : Archive} (op : Operation) {hashes : List String}
    (hread : CommandLine.Arguments.read args = .ok (standardArguments op hashes))
    (hnonempty : hashes ≠ []) (hversion : archive.version ≤ schemaVersion) :
    Call args (storeWorld archive) where
  arguments := standardArguments op hashes
  command := ⟨op, hashes.map .text, .null, .null, false, false, .null, false⟩
  settings := Settings.standard.applyArguments (standardArguments op hashes)
  analysis := ⟨.seqPhragmen, .int 10, .bool true, .bool false, .proRata, .int 2⟩
  config := ⟨⟨.seqPhragmen, 10⟩, true, false, .proRata, .whole 2⟩
  coefficient := 2
  hashes := hashes
  storePath := "s"
  tablePath := "o"
  ready := { storeWorld archive with log := ⟨20, .human, none⟩ }
  archive := archive
  disk := (storeWorld archive).disk
  read := hread
  transforms := rfl
  stored := rfl
  requested := rfl
  nonempty := hnonempty
  loaded := rfl
  analysed := analysis_standard op hashes
  configured := rfl
  whole := rfl
  storeSet := rfl
  tableSet := rfl
  logged := run_setUpLog_standard op hashes _
  opened := by cbv
  version := hversion
  new := by
    have hleads : Disk.leads ⟨.ofList [("s", .archive archive)], []⟩ "o" = .ok false := by cbv
    have hopen : Disk.openForWriting ⟨.ofList [("s", .archive archive)], []⟩ "o" =
        .ok ⟨⟨.ofList [("s", .archive archive)], []⟩, ⟨false, ["o"]⟩, .text ""⟩ := by cbv
    exact ⟨hleads, _, hopen, rfl⟩

/-! ### All calls -/

/-- A failure to load that no run gets over, as of a text that is no export, ends the call without a
table, with code one if it is a bad value and as a failure of the program otherwise.

Without such a failure, the new file has a row for each requested hash whose state is there and
comes to a row, in order of the requests, up to the first row with a number that is too long for a
text; it is the row of that state alone. The exit code is zero exactly if every request comes to a
row that has a text. Whatever keeps one from a row is known to a run, which goes on. The ledger
checks write nothing, and their exit code is zero exactly if all states are there and a report is
made.

What is stored has no negative stake, and no text with a surrogate without its pair
(`Archive.Sound`). The coefficient of the settings is a whole number, and the path of the table
leads to nothing yet (`Call`). -/
theorem rows_and_exit_code (hsound : call.archive.Sound call.hashes) (j : Journal) :
    (∀ e, call.stop? = some e → ∃ disk j',
      (Runner.run args).run w j =
        ⟨if e.isReported then .ok 1 else .error e, call.ready.withDisk disk, j'⟩ ∧
      disk.text? call.tablePath = .ok none) ∧
    (call.stop? = none → ∃ code disk j',
      (Runner.run args).run w j = ⟨.ok code, call.ready.withDisk disk, j'⟩ ∧
      (code = 0 ∨ code = 1) ∧
      (call.command.operation ≠ .ledgerChecks →
        disk.text? call.tablePath =
          .ok (Table.textOf (call.hashes.filterMap fun hash => (call.row hash).toOption)) ∧
        (code = 0 ↔ ∀ hash ∈ call.hashes, ∃ row, call.row hash = .ok row ∧ row.hasText = true) ∧
        ∀ hash ∈ call.hashes, ∀ e, call.row hash = .error e → e.isAnalysis = true) ∧
      (call.command.operation = .ledgerChecks →
        disk.text? call.tablePath = .ok none ∧
        (code = 0 ↔ ∃ states, call.hashes.mapM call.archive.fetch = .ok states ∧
          ∃ report, Analysis.report states = .ok report))) := by
  have hcode (p : Prop) [Decidable p] : ((if p then 0 else 1) = 0 ∨ (if p then 0 else 1) = 1) ∧
      ((if p then 0 else 1) = 0 ↔ p) := by
    split <;> simp_all
  refine ⟨fun e hstop => call.run_of_stop hstop j, fun hstop => ?_⟩
  by_cases hop : call.command.operation = .ledgerChecks
  · obtain ⟨disk, j', hrun, htext⟩ := call.run_ledgerChecks hstop hop j
    refine ⟨_, disk, j', hrun, (hcode _).1, fun hno => absurd hop hno, fun _ => ⟨htext, ?_⟩⟩
    rw [(hcode _).2, failures_report_eq_zero_iff]
  · obtain ⟨disk, j', hrun, htext⟩ := call.run_operation hsound hstop hop j
    refine ⟨_, disk, j', hrun, (hcode _).1, fun _ => ⟨htext, ?_, ?_⟩, fun hyes => absurd hyes hop⟩
    · rw [(hcode _).2, all_successes_and_failures_iff]
    · exact fun hash hmem e => call.isAnalysis_of_row hsound hstop hmem

end Call

/-- A state with one validator. -/
def lonely : StakingState where
  blockNumber := 7
  blockHash := "0xa"
  profile := .polkadot
  activeEra := .null
  validatorCount := 0
  validators := ["v"]
  nominators := .empty
  ledgers := .ofList [("c", ⟨"v", 30, 30⟩)]
  bonded := .ofList [("v", "c")]
  payees := .empty
  slots := .empty

theorem lonely_exportable : lonely.Exportable where
  whole := .inl rfl
  profile := by cbv
  blockNumber := short_of_lt (by decide)
  activeEra := .inl rfl
  validatorCount := short_of_lt (by decide)
  ledgers := List.forall_mem_singleton.mpr ⟨short_of_lt (by decide), short_of_lt (by decide)⟩
  stakes := fun _ hx => nomatch hx
  seats := fun _ hseats => nomatch hseats

theorem lonely_solvent : lonely.Solvent :=
  ⟨List.forall_mem_singleton.mpr (by decide), fun _ hx => nomatch hx⟩

/-- Where it is stored, it has a row. -/
theorem row_of_lonely {args : List String} {w : World} (call : Call args w)
    (hop : call.command.operation = .minActiveStake) (hcoefficient : call.coefficient = 2)
    (hfetch : call.archive.fetch "0xa" = .ok lonely) :
    call.row "0xa" = .ok (Analysis.StakeResult.toRow ⟨7, some 30⟩) := by
  have hstake : lonely.minActiveStake (.whole 2) = .ok (some 30) := by cbv
  have hc : call.config.coefficient = .whole 2 := hcoefficient ▸ call.whole
  rw [Call.row, hfetch, hop]
  exact Analysis.outcome_minActiveStake lonely_exportable.toModerate lonely_solvent hc hstake

/-- Of three requests the second is for a hash that nothing is stored under. The other two are for
the same state and give a row each. -/
theorem rows_and_exit_code_of_repeated_request :
    let args := ["--snapshot-path", "s", "--output-path", "o", "transform", "min-active-stake",
      "--at", "0xa", "--at", "0xb", "--at", "0xa"]
    let w := Call.storeWorld ⟨[Store.savedOf lonely], 1⟩
    ∃ disk' j', (Runner.run args).run w #[] =
        ⟨.ok 1, { w with disk := disk', log := ⟨20, .human, none⟩ }, j'⟩ ∧
      disk'.text? "o" = .ok (some "block_number,min_active_stake\r\n7,30\r\n7,30\r\n") := by
  intro args w
  let hashes := ["0xa", "0xb", "0xa"]
  have hread : CommandLine.Arguments.read args =
    .ok (Call.standardArguments .minActiveStake hashes) := rfl
  let call : Call args w := .ofStore .minActiveStake hread (List.cons_ne_nil _ _) (by decide)
  have hfetch : call.archive.fetch "0xa" = .ok lonely :=
    StakingState.decode_print Json.loose_compact lonely_exportable
  have hunknown : call.archive.fetch "0xb" = .error (.stored (.unknownBlock "0xb")) := rfl
  have hrequests : ∀ hash ∈ hashes, hash = "0xa" ∨ hash = "0xb" := by decide
  have hsound : call.archive.Sound call.hashes := by
    refine Archive.sound_of_fetch fun hash hmem => ?_
    rcases hrequests hash hmem with rfl | rfl
    · exact .inl ⟨lonely, hfetch, lonely_solvent⟩
    · exact .inr ⟨_, hunknown, fun _ h => nomatch h⟩
  have hstop : call.stop? = none := by
    refine List.findSome?_eq_none_iff.mpr fun hash hmem => ?_
    rcases hrequests hash hmem with rfl | rfl
    · rw [hfetch, stopOf]
    · rw [hunknown]
      rfl
  have hrow := row_of_lonely call rfl rfl hfetch
  have hnone := call.row_of_fetch_error hunknown
  obtain ⟨-, hgoes⟩ := call.rows_and_exit_code hsound #[]
  obtain ⟨code, disk', j', hrun, hcode, hrows, -⟩ := hgoes hstop
  obtain ⟨htext, hzero, -⟩ := hrows (show Operation.minActiveStake ≠ .ledgerChecks by decide)
  have hone : code = 1 := by
    refine hcode.resolve_left fun h => ?_
    obtain ⟨row, hok, -⟩ := hzero.mp h "0xb" (show "0xb" ∈ hashes by decide)
    rw [hnone] at hok
    cases hok
  have hfile : successes call.row hashes =
      [Analysis.StakeResult.toRow ⟨7, some 30⟩, Analysis.StakeResult.toRow ⟨7, some 30⟩] := by
    rw [successes_cons_ok hrow, successes_cons_error hnone, successes_cons_ok hrow]
    rfl
  have hwritten : Table.textOf
      [Analysis.StakeResult.toRow ⟨7, some 30⟩, Analysis.StakeResult.toRow ⟨7, some 30⟩] =
      some "block_number,min_active_stake\r\n7,30\r\n7,30\r\n" := by
    have htold : (Analysis.StakeResult.toRow ⟨7, some 30⟩).hasText = true := by decide +kernel
    rw [Table.textOf, List.takeWhile_cons_of_pos htold, List.takeWhile_cons_of_pos htold]
    cbv
  subst hone
  refine ⟨disk', j', hrun, ?_⟩
  rw [← hwritten, ← hfile]
  exact htext

/-- So it is not true that every request whose state is there and comes to a row gives one: here the
text that is stored under the first hash is no JSON, and the second request is not looked at. -/
theorem not_rows_for_all_requests :
    ¬ ∀ (args : List String) (w : World) (call : Call args w) (j : Journal),
      call.archive.Sound call.hashes → call.command.operation ≠ .ledgerChecks →
      ∃ code disk j', (Runner.run args).run w j = ⟨.ok code, call.ready.withDisk disk, j'⟩ ∧
        disk.text? call.tablePath =
          .ok (Table.textOf (call.hashes.filterMap fun hash => (call.row hash).toOption)) := by
  intro hall
  let args := ["--snapshot-path", "s", "--output-path", "o", "transform", "min-active-stake",
    "--at", "0xbad", "--at", "0xa"]
  let hashes := ["0xbad", "0xa"]
  let w := Call.storeWorld ⟨[⟨"0xbad", 1, "polkadot", "\x7b"⟩, Store.savedOf lonely], 1⟩
  have hread : CommandLine.Arguments.read args =
    .ok (Call.standardArguments .minActiveStake hashes) := rfl
  let call : Call args w := .ofStore .minActiveStake hread (List.cons_ne_nil _ _) (by decide)
  have hfetch : call.archive.fetch "0xa" = .ok lonely :=
    StakingState.decode_print Json.loose_compact lonely_exportable
  have hbad : call.archive.fetch "0xbad" = .error (.json ⟨.name, 1, 2, 1⟩) := rfl
  have hsound : call.archive.Sound call.hashes := by
    refine Archive.sound_of_fetch fun hash hmem => ?_
    rcases (by decide : ∀ hash ∈ hashes, hash = "0xa" ∨ hash = "0xbad") hash hmem with rfl | rfl
    · exact .inl ⟨lonely, hfetch, lonely_solvent⟩
    · refine .inr ⟨_, hbad, fun fault h => ?_⟩
      rw [← Failure.json.inj h]
      exact nofun
  have hstop : call.stop? = some (.json ⟨.name, 1, 2, 1⟩) := by
    change List.findSome? _ ("0xbad" :: ["0xa"]) = _
    rw [List.findSome?_cons, hbad]
    rfl
  obtain ⟨disk, j', hrun, htext⟩ := call.run_of_stop hstop #[]
  obtain ⟨code, disk', j'', hrun', htext'⟩ :=
    hall args w call #[] hsound (show Operation.minActiveStake ≠ .ledgerChecks by decide)
  have hsame : disk' = disk :=
    (congrArg (fun r : Run World Nat => r.state.disk) (hrun.symm.trans hrun')).symm
  have hrow := row_of_lonely call rfl rfl hfetch
  have hfile : successes call.row hashes = [Analysis.StakeResult.toRow ⟨7, some 30⟩] := by
    rw [successes_cons_error (call.row_of_fetch_error hbad), successes_cons_ok hrow]
    rfl
  rw [hsame, htext] at htext'
  change Except.ok none = .ok (Table.textOf (successes call.row hashes)) at htext'
  rw [hfile] at htext'
  cases htext'

end Runner

end StakingElection
